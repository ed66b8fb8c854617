import LithiumTools.FileSystem

/-!
# Path resolution and the system calls

Paths are resolved as Linux does, with at most `maxSymlinks` links. A call resolves its path and
changes the tree at the real path it got in one step, or fails and changes nothing.
-/

namespace LithiumTools

inductive Walk
  | done (rp : List Name)
  | follow (base : List Name) (rest : List Component)
  | fail (e : Error)

/-- Linux's `MAXSYMLINKS`: how many symbolic links one resolution may follow. -/
def maxSymlinks : Nat := 40

namespace Fs

/-- Walk the components from the real directory `cur` until the end or the next symbolic link to
follow; the last component's link is followed only when `followLast`. -/
def walk (fs : Fs) (followLast : Bool) : List Name → List Component → Walk
  | cur, [] => .done cur
  | _, .rootDir :: cs => fs.walk followLast [] cs
  | cur, .curDir :: cs => fs.walk followLast cur cs
  | cur, .parentDir :: cs => fs.walk followLast cur.dropLast cs
  | cur, .normal n :: cs =>
    match fs.kindAt (cur ++ [n]), cs with
    | some .dir, _ => fs.walk followLast (cur ++ [n]) cs
    | some (.symlink []), _ => .fail .notFound
    | some (.symlink t), [] => if followLast then .follow cur (components t) else .done (cur ++ [n])
    | some (.symlink t), _ :: _ => .follow cur (components t ++ cs)
    | some .file, [] => .done (cur ++ [n])
    | some .file, _ :: _ => .fail .notADirectory
    | none, [] => .done (cur ++ [n])
    | none, _ :: _ => .fail .notFound

def resolve (fs : Fs) (followLast : Bool) : Nat → List Name → List Component →
    Except Error (List Name)
  | links, cur, cs =>
    match fs.walk followLast cur cs with
    | .done rp => .ok rp
    | .fail e => .error e
    | .follow base rest =>
      match links with
      | 0 => .error .filesystemLoop
      | k + 1 => fs.resolve followLast k base rest

/-- The real path a path leads to; an empty path names nothing. -/
def locate (fs : Fs) (followLast : Bool) (p : List Component) : Except Error (List Name) :=
  if p = [] then .error .notFound else fs.resolve followLast maxSymlinks fs.cwd p

/-- `stat`, which `fs::metadata` and `File::open` make: the node a path names, links followed. -/
def stat (fs : Fs) (p : List Component) : Except Error (List Name × Node) := do
  let rp ← fs.locate true p
  match fs.get rp with
  | some nd => pure (rp, nd)
  | none => throw .notFound

def lstat (fs : Fs) (p : List Component) : Except Error (List Name × Node) := do
  let rp ← fs.locate false p
  match fs.get rp with
  | some nd => pure (rp, nd)
  | none => throw .notFound

def isFile (fs : Fs) (p : List Component) : Bool :=
  match fs.stat p with
  | .ok (_, .file _ _) => true
  | _ => false

def isDir (fs : Fs) (p : List Component) : Bool :=
  match fs.stat p with
  | .ok (_, .dir _) => true
  | _ => false

def canonicalize (fs : Fs) (p : List Component) : Except Error (List Name) :=
  (·.1) <$> fs.stat p

def readAt (fs : Fs) (rp : List Name) : Except Error (Bytes × Metadata) :=
  match fs.get rp with
  | some (.file d m) => .ok (d, m)
  | some _ => .error .isADirectory
  | none => .error .notFound

/-- A new entry at `p`, its last link not followed, which must not exist yet: `mkdir`, `symlink`,
`link`, and `open` with `O_CREAT | O_EXCL`. -/
def createNew (fs : Fs) (p : List Component) (nd : Node) (hnd : nd.distinctNames = true) :
    Except Error (Fs × List Name) := do
  let rp ← fs.locate false p
  match h : fs.kindAt rp with
  | none => pure (fs.setAt rp (some nd) (by simpa using hnd) (by simp [h]), rp)
  | some _ => throw .alreadyExists

def mkdir (fs : Fs) (p : List Component) : Except Error Fs :=
  (·.1) <$> fs.createNew p (.dir []) rfl

/-- `symlink`: Linux refuses an empty target. -/
def symlink (fs : Fs) (target : List Char) (p : List Component) : Except Error Fs :=
  if target = [] then .error .notFound else (·.1) <$> fs.createNew p (.symlink target) rfl

/-- `link` (`fs::hard_link`): the new name gets a copy of the node, which nothing the tools do can
tell from the shared file. -/
def hardLink (fs : Fs) (src dst : List Component) : Except Error Fs := do
  let rs ← fs.locate false src
  match fs.get rs with
  | none => throw .notFound
  | some (.dir _) => throw .permissionDenied
  | some (.file d m) => (·.1) <$> fs.createNew dst (.file d m) rfl
  | some (.symlink t) => (·.1) <$> fs.createNew dst (.symlink t) rfl

def removeFile (fs : Fs) (p : List Component) : Except Error Fs := do
  let rp ← fs.locate false p
  match h : fs.kindAt rp with
  | none => throw .notFound
  | some k =>
    if hk : k = .dir then throw .isADirectory
    else pure (fs.setAt rp none (by simp) (by rw [h]; simpa using hk))

/-- `File::create`: open for writing, links followed, creating or emptying the file and stamping it
with the time. -/
def createTrunc (fs : Fs) (p : List Component) : Except Error (Fs × List Name) := do
  let rp ← fs.locate true p
  match h : fs.get rp with
  | none => pure (fs.setAt rp (some (.file [] { Metadata.created with mtime := fs.now })) (by simp)
      (by simp [kindAt, h]), rp)
  | some (.file _ m) => pure (fs.setAt rp (some (.file [] { m with mtime := fs.now })) (by simp)
      (by simp [kindAt, h]), rp)
  | some _ => throw .isADirectory

def appendAt (fs : Fs) (rp : List Name) (chunk : Bytes) : Fs :=
  match h : fs.get rp with
  | some (.file d m) => fs.setAt rp (some (.file (d ++ chunk) { m with mtime := fs.now })) (by simp)
      (by simp [kindAt, h])
  | _ => fs

def call {ε α : Type} (f : Fs → Except ε (Fs × α)) : EStateM ε Fs α := fun fs =>
  match f fs with
  | .ok (fs', a) => .ok a fs'
  | .error e => .error e fs

def query {ε α : Type} (f : Fs → Except ε α) : EStateM ε Fs α := fun fs =>
  match f fs with
  | .ok a => .ok a fs
  | .error e => .error e fs

/-- Run a procedure and hand on its error as a value, with what it did before failing. -/
def attempt {ε ε' α : Type} (x : EStateM ε Fs α) : EStateM ε' Fs (Except ε α) := fun fs =>
  match x fs with
  | .ok a fs' => .ok (.ok a) fs'
  | .error e fs' => .ok (.error e) fs'

/-- `fs::create_dir_all`: the parents first when one is missing; the recursion is on the path
reversed, so that `Path::parent` is the tail. -/
def createDirAll (p : List Component) : EStateM Error Fs Unit :=
  go p.reverse
where go : List Component → EStateM Error Fs Unit
  | [] => pure ()
  | c :: rcs => fun fs =>
    let path := (c :: rcs).reverse
    match fs.mkdir path with
    | .ok fs' => .ok () fs'
    | .error .notFound =>
      if c = .rootDir then .error .other fs
      else match go rcs fs with
        | .ok () fs' =>
          match fs'.mkdir path with
          | .ok fs'' => .ok () fs''
          | .error e => if fs'.isDir path then .ok () fs' else .error e fs'
        | .error e fs' => .error e fs'
    | .error e => if fs.isDir path then .ok () fs else .error e fs

end Fs

end LithiumTools
