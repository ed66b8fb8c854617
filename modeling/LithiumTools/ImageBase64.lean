import LithiumTools.Base64
import LithiumTools.Resolve

/-!
# image-base64

The functions of `image_base64.rs` that move data between image files, Base64 text and the file
system; the `image` crate's codecs are a parameter.
-/

namespace LithiumTools

/-! ### Text -/

def utf8Char (c : Char) : Bytes :=
  let n := c.toNat
  (if n < 0x80 then [n]
    else if n < 0x800 then [0xC0 + n / 0x40, 0x80 + n % 0x40]
    else if n < 0x10000 then [0xE0 + n / 0x1000, 0x80 + n / 0x40 % 0x40, 0x80 + n % 0x40]
    else [0xF0 + n / 0x40000, 0x80 + n / 0x1000 % 0x40, 0x80 + n / 0x40 % 0x40, 0x80 + n % 0x40]
  ).map UInt8.ofNat

def utf8Encode (s : List Char) : Bytes :=
  s.flatMap utf8Char

def continuation (b : UInt8) : Option Nat :=
  if 0x80 ≤ b.toNat ∧ b.toNat < 0xC0 then some (b.toNat - 0x80) else none

/-- The first character of UTF-8 bytes: shortest forms only, no surrogates, nothing above
`U+10FFFF`. -/
def utf8Next : Bytes → Option (Char × Bytes)
  | [] => none
  | b0 :: rest =>
    if b0.toNat < 0x80 then some (Char.ofNat b0.toNat, rest)
    else match rest with
    | [] => none
    | b1 :: rest1 =>
      if 0xC2 ≤ b0.toNat ∧ b0.toNat < 0xE0 then
        match continuation b1 with
        | some k1 => some (Char.ofNat ((b0.toNat - 0xC0) * 0x40 + k1), rest1)
        | none => none
      else match rest1 with
      | [] => none
      | b2 :: rest2 =>
        if 0xE0 ≤ b0.toNat ∧ b0.toNat < 0xF0 then
          match continuation b1, continuation b2 with
          | some k1, some k2 =>
            let n := (b0.toNat - 0xE0) * 0x1000 + k1 * 0x40 + k2
            if 0x800 ≤ n ∧ (n < 0xD800 ∨ 0xDFFF < n) then some (Char.ofNat n, rest2) else none
          | _, _ => none
        else match rest2 with
        | [] => none
        | b3 :: rest3 =>
          if 0xF0 ≤ b0.toNat ∧ b0.toNat < 0xF5 then
            match continuation b1, continuation b2, continuation b3 with
            | some k1, some k2, some k3 =>
              let n := (b0.toNat - 0xF0) * 0x40000 + k1 * 0x1000 + k2 * 0x40 + k3
              if 0x10000 ≤ n ∧ n < 0x110000 then some (Char.ofNat n, rest3) else none
            | _, _, _ => none
          else none

def utf8DecodeFrom : Nat → Bytes → Option (List Char)
  | _, [] => some []
  | 0, _ :: _ => none
  | k + 1, b :: bs =>
    match utf8Next (b :: bs) with
    | some (c, rest) => (c :: ·) <$> utf8DecodeFrom k rest
    | none => none

def utf8Decode (bs : Bytes) : Option (List Char) :=
  utf8DecodeFrom bs.length bs

/-- `char::is_whitespace`: the Unicode `White_Space` property. -/
def isWhitespace (c : Char) : Bool :=
  let n := c.toNat
  (0x09 ≤ n && n ≤ 0x0D) || n == 0x20 || n == 0x85 || n == 0xA0 || n == 0x1680 ||
    (0x2000 ≤ n && n ≤ 0x200A) || n == 0x2028 || n == 0x2029 || n == 0x202F || n == 0x205F ||
    n == 0x3000

def trim (s : List Char) : List Char :=
  ((s.dropWhile isWhitespace).reverse.dropWhile isWhitespace).reverse

/-- `str::lines`: cut after each `\n`, which a line loses with a `\r` just before it; a last part
without `\n` is a line. -/
def lines (s : List Char) : List (List Char) :=
  linesFrom [] s
where linesFrom (cur : List Char) : List Char → List (List Char)
  | [] => if cur = [] then [] else [cur]
  | c :: s =>
    if c = '\n' then (if cur.getLast? = some '\r' then cur.dropLast else cur) :: linesFrom [] s
    else linesFrom (cur ++ [c]) s

def pushName (dir name : List Char) : List Char :=
  if dir = [] ∨ dir.getLast? = some '/' then dir ++ name else dir ++ ['/'] ++ name

/-- `Path::extension`: what follows the last `.` of the file name, unless the name has no `.`
but a leading one. -/
def extension (path : List Char) : Option (List Char) :=
  match (components path).getLast? with
  | some (.normal n) =>
    let before := ((n.chars.reverse.dropWhile (· ≠ '.')).drop 1).reverse
    if before = [] then none else some (n.chars.reverse.takeWhile (· ≠ '.')).reverse
  | _ => none

/-! ### Images -/

inductive ImageFormat
  | jpeg
  | png
  | tiff
  | webP
  | bmp
  deriving DecidableEq

/-- The format `encode_image_to_base64` falls back on: by the extension, PNG otherwise;
`to_lowercase` folds only ASCII letters here. -/
def formatOfPath (path : List Char) : ImageFormat :=
  match extension path with
  | some ext =>
    let e := ext.map Char.toLower
    if e = "jpg".toList ∨ e = "jpeg".toList then .jpeg
    else if e = "png".toList then .png
    else if e = "tif".toList ∨ e = "tiff".toList then .tiff
    else if e = "webp".toList then .webP
    else if e = "bmp".toList then .bmp
    else .png
  | none => .png

/-- What the tool uses of the `image` crate, over images it never looks into; `none` is an
`ImageError`. -/
structure ImageLib (Image : Type) where
  /-- `ImageReader::open(path)?.decode()`: the format guessed from the path. -/
  decodeFile : List Char → Bytes → Option Image
  /-- `ImageReader::new(..).with_guessed_format()?.decode()`: the format guessed from the bytes. -/
  decodeGuessed : Bytes → Option Image
  resizeExact : Image → Nat → Nat → Image
  writeTo : Image → ImageFormat → Option Bytes

inductive ToolError
  | io (e : Error)
  | image
  | base64 (e : DecodeError)
  | message (text : String)
  deriving DecidableEq

def qualityMessage : String := "Quality parameter is only supported for JPEG format"

section Tool

variable {Image : Type} (lib : ImageLib Image)

def liftImage {α : Type} : Option α → Except ToolError α
  | some a => .ok a
  | none => .error .image

def readToString (fs : Fs) (path : List Char) : Except Error (List Char) := do
  let (rp, _) ← fs.stat (sysPath path)
  let (bytes, _) ← fs.readAt rp
  match utf8Decode bytes with
  | some s => pure s
  | none => throw .invalidData

def encodeImageToBase64 (fs : Fs) (imagePath : List Char) (format : Option ImageFormat)
    (quality : Option Nat) (resize : Option (Nat × Nat)) (urlSafe : Bool) :
    Except ToolError (List Char) := do
  let (rp, _) ← (fs.stat (sysPath imagePath)).mapError .io
  let (bytes, _) ← (fs.readAt rp).mapError .io
  let img ← liftImage (lib.decodeFile imagePath bytes)
  let img := match resize with
    | some (width, height) => lib.resizeExact img width height
    | none => img
  let fmt := format.getD (formatOfPath imagePath)
  if quality.isSome ∧ fmt ≠ .jpeg then throw (.message qualityMessage)
  let buffer ← liftImage (lib.writeTo img fmt)
  pure ((Alphabet.ofUrlSafe urlSafe).encode buffer)

/-- `decode_base64_to_image`: the output is created only once the text has decoded to an image. -/
def decodeBase64ToImage (base64Str outputPath : List Char) (urlSafe : Bool) :
    EStateM ToolError Fs Unit := do
  let decoded ← Fs.query fun _ =>
    ((Alphabet.ofUrlSafe urlSafe).decode (trim base64Str)).mapError .base64
  let img ← Fs.query fun _ => liftImage (lib.decodeGuessed decoded)
  let rp ← Fs.call fun fs => (fs.createTrunc (sysPath outputPath)).mapError .io
  let png ← Fs.query fun _ => liftImage (lib.writeTo img .png)
  modify (·.appendAt rp png)

/-- The `encode` command with an output file: `std::fs::write` of the text. -/
def encodeCommand (imagePath : List Char) (format : Option ImageFormat) (quality : Option Nat)
    (resize : Option (Nat × Nat)) (urlSafe : Bool) (outputPath : List Char) :
    EStateM ToolError Fs Unit := do
  let base64Str ← Fs.query fun fs =>
    encodeImageToBase64 lib fs imagePath format quality resize urlSafe
  let rp ← Fs.call fun fs => (fs.createTrunc (sysPath outputPath)).mapError .io
  modify (·.appendAt rp (utf8Encode base64Str))

def resultLine (path encoded : List Char) : List Char :=
  path ++ ": ".toList ++ encoded ++ ['\n']

/-- `encode_multiple_images` with an output file: every image is encoded before anything is written.
-/
def encodeMultipleImages (imagePaths : List (List Char)) (format : Option ImageFormat)
    (quality : Option Nat) (resize : Option (Nat × Nat)) (urlSafe : Bool)
    (outputFile : Option (List Char)) : EStateM ToolError Fs Unit := do
  let results ← Fs.query fun fs => imagePaths.mapM fun path => do
    let encoded ← encodeImageToBase64 lib fs path format quality resize urlSafe
    pure (path, encoded)
  match outputFile with
  | some outputPath =>
    let rp ← Fs.call fun fs => (fs.createTrunc (sysPath outputPath)).mapError .io
    modify fun fs => fs.appendAt rp (utf8Encode (results.flatMap fun r => resultLine r.1 r.2))
  | none => pure ()

def decodeFromFile (base64File outputDir : List Char) (urlSafe : Bool) :
    EStateM ToolError Fs (List Char) := do
  let base64Str ← Fs.query fun fs => (readToString fs base64File).mapError .io
  let outputPath := pushName outputDir "decoded_image.png".toList
  decodeBase64ToImage lib base64Str outputPath urlSafe
  pure outputPath

def batchOutputPath (outputDir : List Char) (i : Nat) : List Char :=
  outputDir ++ "/image_".toList ++ (toString i).toList ++ ".png".toList

def decodeLines (outputDir : List Char) (urlSafe : Bool) :
    Nat → List (List Char) → EStateM ToolError Fs Unit
  | _, [] => pure ()
  | i, line :: ls => do
    decodeBase64ToImage lib line (batchOutputPath outputDir i) urlSafe
    decodeLines outputDir urlSafe (i + 1) ls

def batchDecode (inputFile outputDir : List Char) (urlSafe : Bool) : EStateM ToolError Fs Unit := do
  let content ← Fs.query fun fs => (readToString fs inputFile).mapError .io
  decodeLines lib outputDir urlSafe 0 (lines content)

end Tool

end LithiumTools
