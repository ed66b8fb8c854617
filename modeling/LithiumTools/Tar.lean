import LithiumTools.Gzip

/-!
# Tar archives

`Builder::append_file` and `Archive::unpack` of the tar crate. The byte layout is a `TarFormat`
with its read-after-write law; where files land is spelled out.
-/

namespace LithiumTools

inductive EntryType
  | regular
  | hardLink
  | symlink
  | directory
  /-- PAX and GNU extension records, which unpacking passes over. -/
  | extension
  /-- Any other type flag, which unpacking writes out as a regular file. -/
  | other
  deriving DecidableEq

structure TarEntry where
  path : List Char
  kind : EntryType
  linkName : Option (List Char)
  /-- Whether the header is POSIX ustar; the builder writes GNU headers. -/
  ustar : Bool
  meta : Metadata
  data : Bytes

/-- What a tar header can hold: names stop at the first NUL. -/
def TarEntry.Storable (e : TarEntry) : Prop :=
  '\x00' ∉ e.path ∧ ∀ l ∈ e.linkName, '\x00' ∉ l

def normalNames : List Component → List Name
  | [] => []
  | .normal n :: cs => n :: normalNames cs
  | _ :: cs => normalNames cs

/-- `copy_path_into`: the path the builder stores, which must be relative, without `..` and not
empty; `.` components are dropped. -/
def archivePath (p : List Component) : Except Error (List Char) :=
  if .rootDir ∈ p ∨ .parentDir ∈ p then .error .other
  else if p = [.curDir] then .ok ['.']
  else match normalNames p with
    | [] => .error .other
    | ns => .ok (joinNames ns)

def appendFile (p : List Component) (meta : Metadata) (data : Bytes) : Except Error TarEntry := do
  let path ← archivePath p
  pure { path, kind := .regular, linkName := none, ustar := false, meta, data }

/-- The two zero blocks `Builder::finish` writes. -/
def endMarker : Bytes := List.replicate 1024 0

/-- The tar crate's byte layout: `encode` is one entry's blocks; `read b eof` is `Archive::entries`
over a source that yields `b` and then ends with `eof`. -/
structure TarFormat where
  encode : TarEntry → Bytes
  read : Bytes → Option Error → List TarEntry × Option Error
  read_encode : ∀ es rest eof, (∀ e ∈ es, e.Storable) →
    read ((es.map encode).flatten ++ endMarker ++ rest) eof = (es, none)

def archiveBytes (tf : TarFormat) (es : List TarEntry) : Bytes :=
  (es.map tf.encode).flatten ++ endMarker

theorem archiveBytes_inj (tf : TarFormat) {es₁ es₂ : List TarEntry} (h₁ : ∀ e ∈ es₁, e.Storable)
    (h₂ : ∀ e ∈ es₂, e.Storable) (h : archiveBytes tf es₁ = archiveBytes tf es₂) : es₁ = es₂ := by
  have r₁ : tf.read (archiveBytes tf es₁) none = (es₁, none) := by
    simpa using tf.read_encode es₁ [] none h₁
  have r₂ : tf.read (archiveBytes tf es₂) none = (es₂, none) := by
    simpa using tf.read_encode es₂ [] none h₂
  rw [h, r₂] at r₁
  exact (Prod.mk.inj r₁).1.symm

namespace Tar

/-- `validate_inside_dst`: the directory an entry goes into must resolve, links followed, inside the
destination, whose real path is returned. -/
def validateInsideDst (dst fileDst : List Component) (fs : Fs) : Except Error (List Name) := do
  let canonParent ← fs.canonicalize fileDst
  let canonTarget ← fs.canonicalize dst
  if canonTarget.isPrefixOf canonParent then pure canonTarget else throw .other

/-- The ancestors `ensure_dir_created` finds missing, walking up while `symlink_metadata` fails; the
path is given reversed. -/
def missingAncestors (fs : Fs) : List Component → List (List Component)
  | [] => [[]]
  | c :: rcs =>
    match fs.lstat (c :: rcs).reverse with
    | .ok _ => []
    | .error _ => (c :: rcs).reverse :: if c = .rootDir then [] else missingAncestors fs rcs

def createAncestors (dst : List Component) : List (List Component) → EStateM Error Fs Unit
  | [] => pure ()
  | a :: as => do
    match parent a with
    | some p => discard <| Fs.query (validateInsideDst dst p)
    | none => pure ()
    Fs.createDirAll a
    createAncestors dst as

def ensureDirCreated (dst dir : List Component) : EStateM Error Fs Unit := fun fs =>
  createAncestors dst (missingAncestors fs dir.reverse).reverse fs

def unpackDir (fileDst : List Component) : EStateM Error Fs Unit := fun fs =>
  match fs.mkdir fileDst with
  | .ok fs' => .ok () fs'
  | .error .alreadyExists => if fs.isDir fileDst then .ok () fs else .error .alreadyExists fs
  | .error e => .error e fs

/-- The metadata an unpacked file gets: the header's permission bits and mtime, an mtime of 0 set as
1. -/
def unpackedMeta (e : TarEntry) : Metadata :=
  { Metadata.created with
    mode := e.meta.mode % 0o1000
    mtime := if e.meta.mtime = 0 then 1 else e.meta.mtime }

/-- A regular entry: open with `O_CREAT | O_EXCL`; when something is there, unlink it and open once
more. -/
def unpackFile (fileDst : List Component) (e : TarEntry) : EStateM Error Fs Unit := fun fs =>
  let nd := Node.file e.data (unpackedMeta e)
  match fs.createNew fileDst nd rfl with
  | .ok (fs', _) => .ok () fs'
  | .error .alreadyExists =>
    let retry (fs' : Fs) := match fs'.createNew fileDst nd rfl with
      | .ok (fs'', _) => .ok () fs''
      | .error e => .error e fs'
    match fs.removeFile fileDst with
    | .ok fs' => retry fs'
    | .error .notFound => retry fs
    | .error e => .error e fs
  | .error e => .error e fs

def unpackSymlink (src : List Char) (fileDst : List Component) : EStateM Error Fs Unit := fun fs =>
  match fs.symlink src fileDst with
  | .ok fs' => .ok () fs'
  | .error .alreadyExists =>
    match fs.removeFile fileDst with
    | .ok fs' =>
      match fs'.symlink src fileDst with
      | .ok fs'' => .ok () fs''
      | .error e => .error e fs'
    | .error e => .error e fs
  | .error e => .error e fs

def linkSource (e : TarEntry) : Except Error (List Char) :=
  match e.linkName with
  | some src => if components src = [] then .error .other else .ok src
  | none => .error .other

def unpackEntry (canonTarget : List Name) (fileDst : List Component) (e : TarEntry) :
    EStateM Error Fs Unit :=
  match e.kind with
  | .directory => unpackDir fileDst
  | .hardLink => do
    let src ← Fs.query fun _ => linkSource e
    let linkSrc := joinPath (realComponents canonTarget) (components src)
    discard <| Fs.query (validateInsideDst (realComponents canonTarget) linkSrc)
    Fs.call fun fs => (·, ()) <$> fs.hardLink linkSrc fileDst
  | .symlink => do
    let src ← Fs.query fun _ => linkSource e
    unpackSymlink src fileDst
  | .extension => pure ()
  | .regular | .other =>
    if !e.ustar && e.path.getLast? = some '/' then unpackDir fileDst else unpackFile fileDst e

/-- `Entry::unpack_in`: roots and `.` are dropped, and an entry with a `..` is skipped (`false`). -/
def unpackIn (dst : List Component) (e : TarEntry) : EStateM Error Fs Bool :=
  let parts := components e.path
  if .parentDir ∈ parts then pure false
  else
    let names := normalNames parts
    if names = [] then pure true
    else do
      ensureDirCreated dst (dst ++ names.dropLast.map .normal)
      let canonTarget ← Fs.query (validateInsideDst dst (dst ++ names.dropLast.map .normal))
      unpackEntry canonTarget (dst ++ names.map .normal) e
      pure true

/-- The first pass of `Archive::unpack`: every entry but a directory, in order; the directories are
set aside. -/
def unpackFiles (dst : List Component) : List TarEntry → EStateM Error Fs (List TarEntry)
  | [] => pure []
  | e :: es =>
    if e.kind = .directory then (e :: ·) <$> unpackFiles dst es
    else do
      discard (unpackIn dst e)
      unpackFiles dst es

def pathLt : List Char → List Char → Bool
  | [], [] => false
  | [], _ :: _ => true
  | _ :: _, [] => false
  | a :: as, b :: bs => a.toNat < b.toNat || (a.toNat == b.toNat && pathLt as bs)

/-- By path, the greatest first, so that a directory comes after everything below it; the sort is
stable. -/
def sortDirs (dirs : List TarEntry) : List TarEntry :=
  dirs.mergeSort fun a b => !pathLt a.path b.path

def unpackDirs (dst : List Component) : List TarEntry → EStateM Error Fs Unit
  | [] => pure ()
  | e :: es => do
    discard (unpackIn dst e)
    unpackDirs dst es

/-- `Archive::unpack` of the archive read from `stream`, the bytes a source yields and its error: an
error of the reading stops it where it is. -/
def unpack (tf : TarFormat) (stream : Bytes × Option Error) (dst : List Component) :
    EStateM Error Fs Unit := do
  if (← get).lstat dst matches .error _ then Fs.createDirAll dst
  let dst := match (← get).canonicalize dst with
    | .ok rp => realComponents rp
    | .error _ => dst
  let (entries, err) := tf.read stream.1 stream.2
  let dirs ← unpackFiles dst entries
  match err with
  | some e => throw e
  | none => unpackDirs dst (sortDirs dirs)

end Tar

/-! ### A format to run the model on

A lawful `TarFormat`: every field of an entry written as an escaped byte string, characters as
four bytes, numbers in unary. It is not the tar layout; the theorems hold for every lawful
format, and this one only shows that the law can be met. -/

namespace StandIn

def escape (bs : Bytes) : Bytes :=
  bs.flatMap (fun b => [1, b]) ++ [0]

def charBytes (c : Char) : Bytes :=
  [c.toNat / 0x1000000, c.toNat / 0x10000, c.toNat / 0x100, c.toNat].map
    fun k => UInt8.ofNat (k % 0x100)

def decodeChars : Bytes → List Char
  | b0 :: b1 :: b2 :: b3 :: rest =>
    Char.ofNat (b0.toNat * 0x1000000 + b1.toNat * 0x10000 + b2.toNat * 0x100 + b3.toNat) ::
      decodeChars rest
  | _ => []

def kindTag : EntryType → UInt8
  | .regular => 0 | .hardLink => 1 | .symlink => 2 | .directory => 3 | .extension => 4
  | .other => 5

def kindOfTag (t : UInt8) : EntryType :=
  if t = 0 then .regular else if t = 1 then .hardLink else if t = 2 then .symlink
  else if t = 3 then .directory else if t = 4 then .extension else .other

def encodeFields (e : TarEntry) : Bytes :=
  escape (e.path.flatMap charBytes) ++ [kindTag e.kind] ++
    escape ((e.linkName.map fun l => l.flatMap charBytes).getD []) ++
    [if e.linkName.isSome then 1 else 0, if e.ustar then 1 else 0] ++
    escape (List.replicate e.meta.mode 0) ++ escape (List.replicate e.meta.uid 0) ++
    escape (List.replicate e.meta.gid 0) ++ escape (List.replicate e.meta.mtime 0) ++
    escape e.data

def encodeEntry (e : TarEntry) : Bytes :=
  1 :: encodeFields e

def parseEntry (s : Bytes) : Except Error (TarEntry × Bytes) := do
  let (path, s) ← unescape s
  let (tag, s) ← match s with | t :: s => pure (t, s) | [] => throw .unexpectedEof
  let (link, s) ← unescape s
  let (hasLink, ustar, s) ← match s with
    | l :: u :: s => pure (l == 1, u == 1, s)
    | _ => throw .unexpectedEof
  let (mode, s) ← unescape s
  let (uid, s) ← unescape s
  let (gid, s) ← unescape s
  let (mtime, s) ← unescape s
  let (data, s) ← unescape s
  pure ({ path := decodeChars path, kind := kindOfTag tag,
          linkName := if hasLink then some (decodeChars link) else none, ustar,
          meta := ⟨mode.length, uid.length, gid.length, mtime.length⟩, data }, s)

/-- Entries up to the terminating zero. As in tar, a source that ends where an entry would begin
ends the archive; inside an entry, it is an error. -/
def readEntries (eof : Option Error) : Nat → Bytes → List TarEntry × Option Error
  | 0, _ => ([], some .other)
  | _ + 1, [] => ([], eof)
  | k + 1, b :: s =>
    if b = 0 then ([], none)
    else match parseEntry s with
      | .ok (e, s') => let (es, err) := readEntries eof k s'; (e :: es, err)
      | .error .unexpectedEof => ([], some (eof.getD .unexpectedEof))
      | .error err => ([], some err)

theorem unescape_escape_append (bs rest : Bytes) : unescape (escape bs ++ rest) = .ok (bs, rest) :=
  by simpa [escape] using unescape_escape bs rest

theorem decodeChars_flatMap (cs : List Char) : decodeChars (cs.flatMap charBytes) = cs := by
  induction cs with
  | nil => rfl
  | cons c cs ih =>
    have hc : c.toNat < 0x100000000 := UInt32.toNat_lt_size c.val
    have hdigit : ∀ k, (UInt8.ofNat (k % 0x100)).toNat = k % 0x100 :=
      fun k => UInt8.toNat_ofNat_of_lt (Nat.mod_lt _ (by decide))
    simp only [List.flatMap_cons, charBytes, List.map_cons, List.map_nil, List.cons_append,
      List.nil_append, decodeChars, hdigit, ih]
    congr 1
    conv_rhs => rw [← Char.ofNat_toNat c]
    congr 1
    omega

theorem kindOfTag_kindTag (k : EntryType) : kindOfTag (kindTag k) = k := by
  cases k <;> rfl

theorem parseEntry_encodeFields (e : TarEntry) (rest : Bytes) :
    parseEntry (encodeFields e ++ rest) = .ok (e, rest) := by
  obtain ⟨path, kind, link, ustar, ⟨mode, uid, gid, mtime⟩, data⟩ := e
  cases link <;> cases ustar <;>
    simp [encodeFields, parseEntry, unescape_escape_append, decodeChars_flatMap,
      kindOfTag_kindTag, bind, Except.bind, pure, Except.pure]

theorem readEntries_encode (eof : Option Error) (es : List TarEntry) (rest : Bytes) (k : Nat)
    (hk : es.length < k) :
    readEntries eof k ((es.map encodeEntry).flatten ++ endMarker ++ rest) = (es, none) := by
  induction es generalizing k with
  | nil =>
    obtain ⟨k, rfl⟩ : ∃ j, k = j + 1 := ⟨k - 1, by simp at hk; omega⟩
    rfl
  | cons e es ih =>
    obtain ⟨k, rfl⟩ : ∃ j, k = j + 1 := ⟨k - 1, by simp at hk; omega⟩
    have hes : es.length < k := by simpa using hk
    have hrest := ih k hes
    have hfields := parseEntry_encodeFields e ((es.map encodeEntry).flatten ++ endMarker ++ rest)
    simp only [List.append_assoc] at hrest hfields
    simp only [List.map_cons, List.flatten_cons, encodeEntry, List.cons_append, List.append_assoc]
    rw [readEntries.eq_3, if_neg (by decide), hfields]
    simp only [hrest]

theorem length_lt_length_flatten (es : List TarEntry) (rest : Bytes) :
    es.length < ((es.map encodeEntry).flatten ++ endMarker ++ rest).length + 1 := by
  induction es with
  | nil => simp
  | cons e es ih => simp [encodeEntry] at ih ⊢; omega

def tarFormat : TarFormat where
  encode := encodeEntry
  read b eof := readEntries eof (b.length + 1) b
  read_encode es rest eof _ := readEntries_encode eof es rest _ (length_lt_length_flatten es rest)

end StandIn

end LithiumTools
