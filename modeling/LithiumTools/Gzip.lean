import LithiumTools.Resolve

/-!
# Gzip streams

flate2's `GzEncoder` and `GzDecoder` (RFC 1952) around a deflate transform that is a parameter,
and the writes the encoder makes: the header with the first data, the trailer when finished.
-/

namespace LithiumTools

/-- The deflate transform of flate2's backend. `resumed level data i` is what `try_finish` writes
after the `i`-th write of the copy failed. -/
structure Deflate where
  compress : Nat → Bytes → Bytes
  dumped : Nat → Bytes → List Bytes
  resumed : Nat → Bytes → Nat → List Bytes
  inflate : Bytes → Bytes × Except Error Bytes
  dumped_prefix : ∀ level data, (dumped level data).flatten <+: compress level data
  inflate_compress : ∀ level data rest, inflate (compress level data ++ rest) = (data, .ok rest)

/-- One byte into the reflected CRC-32 register, polynomial `0xEDB88320`, bit by bit. -/
def crc32Step (crc : Nat) (b : UInt8) : Nat :=
  (List.range 8).foldl (fun c _ => if c % 2 = 1 then c / 2 ^^^ 0xEDB88320 else c / 2)
    (crc ^^^ b.toNat)

def crc32 (data : Bytes) : Nat :=
  data.foldl crc32Step 0xFFFFFFFF ^^^ 0xFFFFFFFF

def le32 (n : Nat) : Bytes :=
  [n, n / 0x100, n / 0x10000, n / 0x1000000].map fun k => UInt8.ofNat (k % 0x100)

/-- The XFL byte: `Compression::best()` is 9 and `Compression::fast()` is 1. -/
def extraFlags (level : Nat) : UInt8 :=
  if 9 ≤ level then 2 else if level ≤ 1 then 4 else 0

/-- The header `GzBuilder` writes: no extra field, name or comment, mtime 0, OS 255. -/
def gzipHeader (level : Nat) : Bytes :=
  [0x1f, 0x8b, 8, 0, 0, 0, 0, 0, extraFlags level, 255]

def gzipTrailer (data : Bytes) : Bytes :=
  le32 (crc32 data) ++ le32 data.length

variable (df : Deflate)

def gzipStream (level : Nat) (data : Bytes) : Bytes :=
  gzipHeader level ++ df.compress level data ++ gzipTrailer data

/-- The writes `GzEncoder` makes while `data` is written into it: the header with the first, then
what the compressor dumps. -/
def gzipWrites (level : Nat) (data : Bytes) : List Bytes :=
  if data = [] then [] else gzipHeader level :: df.dumped level data

/-- The writes of `try_finish`: the header if it is still owed, the rest of the deflate stream, and
the trailer. -/
def gzipFinishWrites (level : Nat) (data : Bytes) : List Bytes :=
  let sent := if data = [] then [] else df.dumped level data
  let rest := (df.compress level data).drop sent.flatten.length
  (if data = [] then [gzipHeader level] else []) ++ (if rest = [] then [] else [rest]) ++
    [gzipTrailer data]

def skipZeroTerminated : Bytes → Except Error Bytes
  | [] => .error .unexpectedEof
  | b :: rest => if b = 0 then .ok rest else skipZeroTerminated rest

def skipExtra : Bytes → Except Error Bytes
  | l0 :: l1 :: rest =>
    let n := l0.toNat + 0x100 * l1.toNat
    if n ≤ rest.length then .ok (rest.drop n) else .error .unexpectedEof
  | _ => .error .unexpectedEof

/-- The header `GzDecoder` reads: the magic, the method, and the optional fields its flags announce.
-/
def parseGzipHeader (s : Bytes) : Except Error Bytes :=
  match s with
  | 0x1f :: 0x8b :: 8 :: flg :: _ :: _ :: _ :: _ :: _ :: _ :: rest => do
    let rest ← if flg &&& 4 = 0 then pure rest else skipExtra rest
    let rest ← if flg &&& 8 = 0 then pure rest else skipZeroTerminated rest
    let rest ← if flg &&& 16 = 0 then pure rest else skipZeroTerminated rest
    if flg &&& 2 = 0 then pure rest
    else match rest with
      | c0 :: c1 :: rest' =>
        let crc := crc32 (s.take (s.length - rest.length)) % 0x10000
        if c0.toNat + 0x100 * c1.toNat = crc then pure rest' else throw .invalidInput
      | _ => throw .unexpectedEof
  | _ => .error (if s.length < 10 then .unexpectedEof else .invalidInput)

/-- `GzDecoder` read to the end: the data it yields, then the error it stops with. One member is
read. -/
def gzipRead (s : Bytes) : Bytes × Option Error :=
  match parseGzipHeader s with
  | .error e => ([], some e)
  | .ok rest =>
    match df.inflate rest with
    | (data, .error e) => (data, some e)
    | (data, .ok rest) =>
      (data, if rest.take 8 = gzipTrailer data then none
        else if rest.length < 8 then some .unexpectedEof else some .invalidInput)

def gzipDecode (s : Bytes) : Except Error Bytes :=
  match gzipRead df s with
  | (data, none) => .ok data
  | (_, some e) => .error e

theorem length_gzipTrailer (data : Bytes) : (gzipTrailer data).length = 8 := rfl

theorem parseGzipHeader_append (level : Nat) (rest : Bytes) :
    parseGzipHeader (gzipHeader level ++ rest) = .ok rest :=
  rfl

theorem gzipRead_gzipStream (level : Nat) (data : Bytes) :
    gzipRead df (gzipStream df level data) = (data, none) := by
  have h8 : (gzipTrailer data).take 8 = gzipTrailer data :=
    List.take_of_length_le (by rw [length_gzipTrailer])
  simp only [gzipRead, gzipStream, List.append_assoc, parseGzipHeader_append, df.inflate_compress,
    h8, if_true]

theorem gzipDecode_gzipStream (level : Nat) (data : Bytes) :
    gzipDecode df (gzipStream df level data) = .ok data := by
  simp only [gzipDecode, gzipRead_gzipStream]

theorem gzipStream_inj (level : Nat) {a b : Bytes}
    (h : gzipStream df level a = gzipStream df level b) :
    a = b := by
  have ha := gzipDecode_gzipStream df level a
  rw [h, gzipDecode_gzipStream] at ha
  exact (Except.ok.inj ha).symm

theorem flatten_gzipWrites_append (level : Nat) (data : Bytes) :
    (gzipWrites df level data ++ gzipFinishWrites df level data).flatten =
      gzipStream df level data := by
  by_cases hd : data = []
  · subst hd
    simp only [gzipWrites, gzipFinishWrites, gzipStream, if_true, List.flatten_nil,
      List.length_nil, List.drop_zero]
    split_ifs <;> simp_all
  · obtain ⟨t, ht⟩ := df.dumped_prefix level data
    have hrest : (df.compress level data).drop (df.dumped level data).flatten.length = t := by
      rw [← ht, List.drop_left]
    simp only [gzipWrites, gzipFinishWrites, gzipStream, hd, if_false, hrest]
    split_ifs <;> simp_all [← ht]

/-- A lawful deflate to run the model on: every byte escaped by a one, and a zero ends the stream.
It is not RFC 1951. -/
def unescape : Bytes → Except Error (Bytes × Bytes)
  | [] => .error .unexpectedEof
  | b :: rest =>
    if b = 0 then .ok ([], rest)
    else match rest with
      | c :: rest' => if b = 1 then (unescape rest').map fun (d, r) => (c :: d, r)
          else .error .invalidInput
      | [] => .error .unexpectedEof

theorem unescape_escape (data rest : Bytes) :
    unescape (data.flatMap (fun b => [1, b]) ++ 0 :: rest) = .ok (data, rest) := by
  induction data with
  | nil => cases rest <;> rfl
  | cons b data ih =>
    have h : (b :: data).flatMap (fun b => [1, b]) ++ 0 :: rest =
        1 :: b :: (data.flatMap (fun b => [1, b]) ++ 0 :: rest) := rfl
    rw [h]
    show (unescape _).map _ = _
    rw [ih]
    rfl

def Deflate.escaped : Deflate where
  compress _ data := data.flatMap (fun b => [1, b]) ++ [0]
  dumped _ _ := []
  resumed _ _ _ := []
  inflate s := match unescape s with
    | .ok (data, rest) => (data, .ok rest)
    | .error e => ([], .error e)
  dumped_prefix _ _ := List.nil_prefix
  inflate_compress _ data rest := by simp [unescape_escape]

end LithiumTools
