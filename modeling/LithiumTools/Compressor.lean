import LithiumTools.Tar
import LithiumTools.WalkDir

/-!
# rcomp

The four functions of `compressor.rs`, in `EStateM Error Fs`: what was written before an error
stays written. `faults i` is the error the `i`-th write of the encoder fails with, if any.
-/

namespace LithiumTools

variable (df : Deflate) (tf : TarFormat)

/-- Write calls through the handle on the file at `rp`, numbered from `i`: the first that fails
stops the writing. -/
def writeChunks (faults : Nat → Option Error) (rp : List Name) :
    Nat → List Bytes → EStateM (Nat × Error) Fs Nat
  | i, [] => pure i
  | i, c :: cs => fun fs =>
    match faults i with
    | some e => .error (i, e) fs
    | none => writeChunks faults rp (i + 1) cs (fs.appendAt rp c)

/-- `Drop for GzEncoder`: the writes of `try_finish` from the `i`-th on, its result discarded. -/
def dropEncoder (faults : Nat → Option Error) (rp : List Name) (i : Nat) (writes : List Bytes) :
    EStateM Error Fs Unit :=
  discard <| Fs.attempt (writeChunks faults rp i writes)

/-- Data written into a `GzEncoder` with `?`: after a failed write, the drop's `try_finish` still
writes what the encoder owes. -/
def encodeThenDrop (faults : Nat → Option Error) (rp : List Name) (level : Nat) (data : Bytes)
    (next : Nat → EStateM Error Fs Unit) : EStateM Error Fs Unit := do
  match ← Fs.attempt (writeChunks faults rp 0 (gzipWrites df level data)) with
  | .error (i, e) =>
    dropEncoder faults rp (i + 1) (df.resumed level data i)
    throw e
  | .ok i => next i

/-- `compress_file`: the input is read through the handle opened first, after the output was
created. -/
def compressFile (faults : Nat → Option Error) (input output : List Char) (level : Nat) :
    EStateM Error Fs Unit := do
  let (rpIn, _) ← Fs.query (·.stat (sysPath input))
  let rpOut ← Fs.call (·.createTrunc (sysPath output))
  match ← Fs.query fun fs => .ok (fs.readAt rpIn) with
  | .error e =>
    dropEncoder faults rpOut 0 (gzipFinishWrites df level [])
    throw e
  | .ok (data, _) =>
    encodeThenDrop df faults rpOut level data fun i => do
      let size ← Fs.query fun fs => .ok (fs.stat (sysPath output))
      dropEncoder faults rpOut i (gzipFinishWrites df level data)
      match size with
      | .error e => throw e
      | .ok _ => pure ()

/-- One turn of the loop of `compress_dir`: `strip_prefix(input).unwrap()`, `File::open` and
`append_file`. -/
def appendEntry (fs : Fs) (input p : List Component) : Except Error TarEntry := do
  let rel ← match stripPrefix p input with
    | some rel => pure rel
    | none => throw .unwrapNone
  let (rp, _) ← fs.stat p
  let (data, meta) ← fs.readAt rp
  appendFile rel meta data

def appendEntries (fs : Fs) (input : List Component) :
    List (List Component) → Except Error (List TarEntry)
  | [] => pure []
  | p :: ps =>
    if fs.isFile p then do
      let e ← appendEntry fs input p
      let es ← appendEntries fs input ps
      pure (e :: es)
    else appendEntries fs input ps

def dirEntries (fs : Fs) (input : List Char) : Except Error (List TarEntry) :=
  appendEntries fs (components input) (walkDir fs (components input))

def compressDir (faults : Nat → Option Error) (input output : List Char) (level : Nat) :
    EStateM Error Fs Unit := do
  let entries ← Fs.query (dirEntries · input)
  let tarBytes := archiveBytes tf entries
  let rpOut ← Fs.call (·.createTrunc (sysPath output))
  encodeThenDrop df faults rpOut level tarBytes fun i =>
    dropEncoder faults rpOut i (gzipFinishWrites df level tarBytes)

def compressPath (faults : Nat → Option Error) (input output : List Char) (level : Nat) :
    EStateM Error Fs Unit := fun fs =>
  if fs.isDir (sysPath input) then compressDir df tf faults input output level fs
  else compressFile df faults input output level fs

def isTarName (input : List Char) : Bool :=
  endsWith input ".tar.gz".toList || endsWith input ".tgz".toList

/-- `decompress_file`. The stream is what the input holds when it is opened; the archive is read
lazily, and the plain output gets what the decoder yields. -/
def decompressFile (input output : List Char) : EStateM Error Fs Unit := do
  let (rpIn, _) ← Fs.query (·.stat (sysPath input))
  let stream ← Fs.query fun fs => .ok <| match fs.readAt rpIn with
    | .ok (bytes, _) => gzipRead df bytes
    | .error e => ([], some e)
  if isTarName input then
    Fs.createDirAll (components output)
    Tar.unpack tf stream (components output)
  else
    let rpOut ← Fs.call (·.createTrunc (sysPath output))
    modify (·.appendAt rpOut stream.1)
    match stream.2 with
    | some e => throw e
    | none => pure ()

end LithiumTools
