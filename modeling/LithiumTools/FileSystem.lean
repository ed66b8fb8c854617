import LithiumTools.Path
import Mathlib.Data.List.Nodup

/-!
# The file system

A Unix file system as the tools touch it: directories, regular files with the metadata tar
records, and symbolic links. Every change is made at a real path, by `Fs.setAt`.
-/

namespace LithiumTools

abbrev Bytes := List UInt8

/-- What `tar` records of a file besides its bytes. -/
structure Metadata where
  mode : Nat
  uid : Nat
  gid : Nat
  mtime : Nat
  deriving DecidableEq

/-- The metadata of a file the tools create: the process's defaults, which nothing reads back. -/
def Metadata.created : Metadata := ⟨0o644, 0, 0, 0⟩

inductive Node
  | file (data : Bytes) (meta : Metadata)
  | dir (entries : List (Name × Node))
  | symlink (target : List Char)

inductive Kind
  | file
  | dir
  | symlink (target : List Char)
  deriving DecidableEq

/-- `io::ErrorKind`, as far as the calls the tools make can produce it. `unwrapNone` stands for
the panic of `Option::unwrap` on `None`. -/
inductive Error
  | notFound
  | alreadyExists
  | notADirectory
  | isADirectory
  | filesystemLoop
  | permissionDenied
  | invalidInput
  | invalidData
  | unexpectedEof
  | other
  | unwrapNone
  deriving DecidableEq

theorem except_bind_eq_ok {ε α β : Type} {x : Except ε α} {f : α → Except ε β} {b : β} :
    x >>= f = .ok b ↔ ∃ a, x = .ok a ∧ f a = .ok b := by
  cases x <;> simp [bind, Except.bind]

namespace Node

def kind : Node → Kind
  | .file _ _ => .file
  | .dir _ => .dir
  | .symlink t => .symlink t

def get : Node → List Name → Option Node
  | nd, [] => some nd
  | .dir es, n :: rp => (es.lookup n).bind fun c => c.get rp
  | _, _ :: _ => none

def setEntry (es : List (Name × Node)) (n : Name) : Option Node → List (Name × Node)
  | none => es.filter (·.1 != n)
  | some c => if es.any (·.1 == n) then es.map (fun e => (e.1, if e.1 = n then c else e.2))
      else es ++ [(n, c)]

def setAt : Node → List Name → Option Node → Node
  | .dir es, [n], v => .dir (setEntry es n v)
  | .dir es, n :: rp, v => .dir (es.map fun e => (e.1, if e.1 = n then e.2.setAt rp v else e.2))
  | nd, _, _ => nd

def entries : Node → List (Name × Node)
  | .dir es => es
  | _ => []

/-- A node as a lookup sees it, a directory without its listing. -/
def shape : Node → Node
  | .dir _ => .dir []
  | nd => nd

def distinctNames : Node → Bool
  | .dir es => decide (es.map Prod.fst).Nodup && distinctEntries es
  | _ => true
where distinctEntries : List (Name × Node) → Bool
  | [] => true
  | (_, c) :: es => c.distinctNames && distinctEntries es

@[simp] theorem kind_dir (es : List (Name × Node)) : (Node.dir es).kind = .dir := rfl
@[simp] theorem kind_file (d : Bytes) (m : Metadata) : (Node.file d m).kind = .file := rfl
@[simp] theorem kind_symlink (t : List Char) : (Node.symlink t).kind = .symlink t := rfl
@[simp] theorem kind_shape (nd : Node) : nd.shape.kind = nd.kind := by cases nd <;> rfl
@[simp] theorem get_nil (nd : Node) : nd.get [] = some nd := by cases nd <;> rfl
@[simp] theorem get_dir_cons (es : List (Name × Node)) (n : Name) (rp : List Name) :
    (Node.dir es).get (n :: rp) = (es.lookup n).bind fun c => c.get rp := rfl
@[simp] theorem distinctNames_file (d : Bytes) (m : Metadata) : (Node.file d m).distinctNames :=
  rfl
@[simp] theorem distinctNames_symlink (t : List Char) : (Node.symlink t).distinctNames := rfl
@[simp] theorem distinctNames_dir_nil : (Node.dir []).distinctNames := rfl

theorem kind_eq_dir {nd : Node} : nd.kind = .dir ↔ ∃ es, nd = .dir es := by
  cases nd <;> simp [kind]

theorem setAt_of_not_dir {nd : Node} (h : nd.kind ≠ .dir) (rp : List Name) (v : Option Node) :
    nd.setAt rp v = nd := by
  cases nd <;> simp_all [setAt, kind]

theorem setAt_dir (es : List (Name × Node)) (rp : List Name) (v : Option Node) :
    (Node.dir es).setAt rp v = .dir ((Node.dir es).setAt rp v).entries := by
  match rp with
  | [] | [_] | _ :: _ :: _ => rfl

theorem distinctEntries_iff (es : List (Name × Node)) :
    distinctNames.distinctEntries es = true ↔ ∀ e ∈ es, e.2.distinctNames = true := by
  induction es with
  | nil => simp [distinctNames.distinctEntries]
  | cons e es ih => simp [distinctNames.distinctEntries, ih]

theorem distinctNames_dir_iff (es : List (Name × Node)) :
    (Node.dir es).distinctNames = true ↔
      (es.map Prod.fst).Nodup ∧ ∀ e ∈ es, e.2.distinctNames = true := by
  simp [distinctNames, distinctEntries_iff]

/-! ### Looking up a changed listing -/

theorem lookup_cons_eq {a k : Name} {c : Node} {es : List (Name × Node)} :
    ((k, c) :: es).lookup a = if a = k then some c else es.lookup a := by
  simp only [List.lookup_cons]
  split <;> simp_all

theorem lookup_map_modify (es : List (Name × Node)) (n m : Name) (g : Node → Node) :
    (es.map fun e => (e.1, if e.1 = n then g e.2 else e.2)).lookup m =
      if m = n then (es.lookup m).map g else es.lookup m := by
  induction es with
  | nil => simp
  | cons e es ih =>
    obtain ⟨k, c⟩ := e
    by_cases hm : m = k <;> by_cases hn : m = n <;> simp_all [lookup_cons_eq]

theorem lookup_filter_ne (es : List (Name × Node)) (n m : Name) :
    (es.filter (·.1 != n)).lookup m = if m = n then none else es.lookup m := by
  induction es with
  | nil => simp
  | cons e es ih =>
    obtain ⟨k, c⟩ := e
    rw [List.filter_cons]
    by_cases hk : k = n
    · subst hk
      simp only [bne_self_eq_false, Bool.false_eq_true, if_false, ih, lookup_cons_eq]
      split_ifs <;> rfl
    · have : (k != n) = true := by simpa using hk
      simp only [this, if_true, lookup_cons_eq, ih]
      by_cases hm : m = k
      · simp [hm, hk]
      · simp [hm]

theorem lookup_isSome_of_any {es : List (Name × Node)} {n : Name} (h : es.any (·.1 == n)) :
    (es.lookup n).isSome := by
  obtain ⟨e, he, hen⟩ := List.any_eq_true.mp h
  exact List.lookup_isSome_iff.mpr ⟨e, he, by simp_all⟩

theorem lookup_eq_none_of_not_any {es : List (Name × Node)} {n : Name}
    (h : ¬ es.any (·.1 == n)) : es.lookup n = none := by
  rw [List.lookup_eq_none_iff]
  intro e he
  have : ¬ (e.1 == n) = true := fun hen => h (List.any_eq_true.mpr ⟨e, he, hen⟩)
  simp only [beq_iff_eq] at this
  simp only [bne_iff_ne, ne_eq]
  exact fun h' => this h'.symm

theorem lookup_setEntry (es : List (Name × Node)) (n m : Name) (v : Option Node) :
    (setEntry es n v).lookup m = if m = n then v else es.lookup m := by
  cases v with
  | none => exact lookup_filter_ne es n m
  | some c =>
    by_cases hany : es.any (·.1 == n)
    · simp only [setEntry, hany, if_true, lookup_map_modify es n m (fun _ => c)]
      by_cases hm : m = n
      · subst hm
        have := lookup_isSome_of_any hany
        cases h : es.lookup m <;> simp_all
      · simp [hm]
    · simp only [setEntry, hany, if_false, Bool.false_eq_true, List.lookup_append]
      by_cases hm : m = n
      · subst hm
        simp [lookup_eq_none_of_not_any hany, lookup_cons_eq]
      · cases es.lookup m <;> simp [hm, lookup_cons_eq]

/-! ### What a change keeps -/

@[simp] theorem kind_setAt (nd : Node) (rp : List Name) (v : Option Node) :
    (nd.setAt rp v).kind = nd.kind := by
  cases nd with
  | dir es => rw [setAt_dir]; rfl
  | file d m => rw [setAt_of_not_dir (by simp)]
  | symlink t => rw [setAt_of_not_dir (by simp)]

theorem distinctNames_setEntry {es : List (Name × Node)} (n : Name) {v : Option Node}
    (hes : (Node.dir es).distinctNames = true) (hv : ∀ c ∈ v, c.distinctNames = true) :
    (Node.dir (setEntry es n v)).distinctNames = true := by
  rw [distinctNames_dir_iff] at hes ⊢
  obtain ⟨hnodup, hchildren⟩ := hes
  cases v with
  | none =>
    refine ⟨(List.filter_sublist es).map Prod.fst |>.nodup hnodup, fun e he => ?_⟩
    exact hchildren e (List.mem_filter.mp he).1
  | some c =>
    have hc : c.distinctNames = true := hv c rfl
    by_cases hany : es.any (·.1 == n)
    · simp only [setEntry, hany, if_true, List.map_map, List.mem_map]
      refine ⟨by simpa [Function.comp_def] using hnodup, ?_⟩
      rintro _ ⟨e, he, rfl⟩
      by_cases h : e.1 = n <;> simp [h, hc, hchildren e he]
    · simp only [setEntry, hany, if_false, Bool.false_eq_true, List.map_append, List.mem_append]
      refine ⟨List.nodup_append.mpr ⟨hnodup, List.nodup_singleton _, ?_⟩, ?_⟩
      · simp only [List.map_cons, List.map_nil, List.disjoint_singleton, List.mem_map]
        rintro ⟨e, he, rfl⟩
        exact hany (List.any_eq_true.mpr ⟨e, he, by simp⟩)
      · rintro e (he | he)
        · exact hchildren e he
        · simp_all

theorem distinctNames_setAt (nd : Node) (rp : List Name) (v : Option Node)
    (hnd : nd.distinctNames = true) (hv : ∀ c ∈ v, c.distinctNames = true) :
    (nd.setAt rp v).distinctNames = true := by
  induction rp generalizing nd with
  | nil => cases nd <;> exact hnd
  | cons n rp ih =>
    cases nd with
    | dir es =>
      cases rp with
      | nil => exact distinctNames_setEntry n hnd hv
      | cons n' rp' =>
        simp only [setAt]
        rw [distinctNames_dir_iff] at hnd ⊢
        obtain ⟨hnodup, hchildren⟩ := hnd
        simp only [List.map_map, List.mem_map]
        refine ⟨by simpa [Function.comp_def] using hnodup, ?_⟩
        rintro _ ⟨e, he, rfl⟩
        by_cases h : e.1 = n
        · simp [h, ih e.2 (hchildren e he)]
        · simp [h, hchildren e he]
    | file d m => exact hnd
    | symlink t => exact hnd

theorem shape_get_setAt_outside (nd : Node) {rp q : List Name} (v : Option Node)
    (h : ¬ rp <+: q) : ((nd.setAt rp v).get q).map shape = (nd.get q).map shape := by
  induction q generalizing nd rp with
  | nil =>
    cases nd with
    | dir es => rw [setAt_dir]; rfl
    | file d m => rw [setAt_of_not_dir (by simp)]
    | symlink t => rw [setAt_of_not_dir (by simp)]
  | cons m q ih =>
    obtain _ | ⟨n, rp⟩ := rp
    · exact absurd List.nil_prefix h
    cases nd with
    | dir es =>
      cases rp with
      | nil =>
        have hmn : m ≠ n := fun hmn => h (by simp [hmn])
        simp [setAt, lookup_setEntry, hmn]
      | cons n' rp' =>
        simp only [setAt, get_dir_cons]
        rw [lookup_map_modify es n m (fun c => c.setAt (n' :: rp') v)]
        by_cases hmn : m = n
        · subst hmn
          have h' : ¬ n' :: rp' <+: q := fun hp => h (List.prefix_cons_inj m |>.mpr hp)
          cases es.lookup m <;> simp [ih _ h']
        · simp [hmn]
    | file d meta => rfl
    | symlink t => rfl

theorem kind_get_setAt_outside (nd : Node) {rp q : List Name} (v : Option Node)
    (h : ¬ rp <+: q) : ((nd.setAt rp v).get q).map kind = (nd.get q).map kind := by
  have := congrArg (Option.map kind) (shape_get_setAt_outside nd v h)
  simpa [Option.map_map, Function.comp_def] using this

theorem get_setAt_self {nd : Node} {rp : List Name} (v : Option Node) (hne : rp ≠ [])
    (hparent : (nd.get rp.dropLast).map kind = some .dir) : (nd.setAt rp v).get rp = v := by
  induction rp generalizing nd with
  | nil => exact absurd rfl hne
  | cons n rp ih =>
    obtain ⟨es, rfl⟩ : ∃ es, nd = .dir es := by
      cases rp with
      | nil => exact kind_eq_dir.mp (by simpa using hparent)
      | cons m rp =>
        cases nd with
        | dir es => exact ⟨es, rfl⟩
        | file d meta => simp [get] at hparent
        | symlink t => simp [get] at hparent
    cases rp with
    | nil => cases v <;> simp [setAt, lookup_setEntry]
    | cons m rp =>
      simp only [List.dropLast_cons₂, get_dir_cons] at hparent
      simp only [setAt, get_dir_cons]
      rw [lookup_map_modify es n n (fun c => c.setAt (m :: rp) v)]
      cases hl : es.lookup n with
      | none => simp [hl] at hparent
      | some c =>
        simp only [hl, Option.bind_some] at hparent
        simp [ih (List.cons_ne_nil m rp) hparent]

theorem get_append (nd : Node) (p q : List Name) : nd.get (p ++ q) = (nd.get p).bind (·.get q) := by
  induction p generalizing nd with
  | nil => simp
  | cons n p ih =>
    cases nd with
    | dir es => simp only [List.cons_append, get_dir_cons, ih, Option.bind_assoc]
    | file d meta => rfl
    | symlink t => rfl

theorem kind_get_above {nd : Node} {rp q : List Name} (hq : (nd.get q).isSome)
    (hp : rp <+: q) (hne : rp ≠ q) : (nd.get rp).map kind = some .dir := by
  induction rp generalizing nd q with
  | nil =>
    obtain _ | ⟨m, q⟩ := q
    · exact absurd rfl hne
    cases nd with
    | dir es => rfl
    | file d meta => simp [get] at hq
    | symlink t => simp [get] at hq
  | cons n rp ih =>
    obtain _ | ⟨m, q⟩ := q
    · exact absurd hp (by simp)
    obtain ⟨rfl, hp'⟩ := List.cons_prefix_cons.mp hp
    have hne' : rp ≠ q := fun h => hne (h ▸ rfl)
    cases nd with
    | dir es =>
      simp only [get_dir_cons] at hq ⊢
      cases hl : es.lookup n with
      | none => simp [hl] at hq
      | some c =>
        simp only [hl, Option.bind_some] at hq ⊢
        exact ih hq hp' hne'
    | file d meta => simp [get] at hq
    | symlink t => simp [get] at hq

end Node

/-- A file system: the entries of `/`, the working directory, and the clock, whose time a
write stamps on the file it changes. -/
structure Fs where
  root : List (Name × Node)
  cwd : List Name
  now : Nat
  distinct : (Node.dir root).distinctNames = true
  cwd_dir : ((Node.dir root).get cwd).map Node.kind = some .dir

namespace Fs

def get (fs : Fs) (rp : List Name) : Option Node :=
  (Node.dir fs.root).get rp

def kindAt (fs : Fs) (rp : List Name) : Option Kind :=
  (fs.get rp).map Node.kind

def setAt (fs : Fs) (rp : List Name) (v : Option Node) (hv : ∀ c ∈ v, c.distinctNames = true)
    (hrp : fs.kindAt rp ≠ some .dir) : Fs where
  root := ((Node.dir fs.root).setAt rp v).entries
  cwd := fs.cwd
  now := fs.now
  distinct := by
    rw [← Node.setAt_dir]
    exact Node.distinctNames_setAt _ rp v fs.distinct hv
  cwd_dir := by
    rw [← Node.setAt_dir]
    by_cases hp : rp <+: fs.cwd
    · by_cases heq : rp = fs.cwd
      · exact absurd (heq ▸ fs.cwd_dir) hrp
      · have hsome : ((Node.dir fs.root).get fs.cwd).isSome := by
          have := fs.cwd_dir
          revert this
          cases (Node.dir fs.root).get fs.cwd <;> simp
        exact absurd (Node.kind_get_above hsome hp heq) hrp
    · rw [Node.kind_get_setAt_outside _ _ hp]
      exact fs.cwd_dir

@[simp] theorem kindAt_nil (fs : Fs) : fs.kindAt [] = some .dir := rfl

theorem get_setAt (fs : Fs) (rp : List Name) (v : Option Node) hv hrp (q : List Name) :
    (fs.setAt rp v hv hrp).get q = ((Node.dir fs.root).setAt rp v).get q := by
  simp only [get, setAt]
  rw [← Node.setAt_dir]

def shapeAt (fs : Fs) (rp : List Name) : Option Node :=
  (fs.get rp).map Node.shape

theorem kindAt_eq_map_shapeAt (fs : Fs) (rp : List Name) :
    fs.kindAt rp = (fs.shapeAt rp).map Node.kind := by
  simp [kindAt, shapeAt, Option.map_map, Function.comp_def]

theorem shapeAt_setAt_outside (fs : Fs) {rp q : List Name} (v : Option Node) hv hrp
    (h : ¬ rp <+: q) : (fs.setAt rp v hv hrp).shapeAt q = fs.shapeAt q := by
  simp only [shapeAt, get_setAt]
  exact Node.shape_get_setAt_outside _ v h

theorem kindAt_above (fs : Fs) {p q : List Name} (hq : fs.kindAt q ≠ none) (hp : p <+: q)
    (hne : p ≠ q) : fs.kindAt p = some .dir :=
  Node.kind_get_above (Option.isSome_iff_ne_none.mpr fun h => hq (by simp [kindAt, get, h]))
    hp hne

theorem kindAt_dropLast (fs : Fs) {p : List Name} (hp : fs.kindAt p ≠ none) :
    fs.kindAt p.dropLast = some .dir := by
  by_cases h : p = []
  · subst h; rfl
  · refine fs.kindAt_above hp (List.dropLast_prefix p) fun h' => h ?_
    have := congrArg List.length h'
    simp only [List.length_dropLast] at this
    exact List.length_eq_zero.mp (by omega)

theorem get_setAt_self (fs : Fs) {rp : List Name} (v : Option Node) hv hrp
    (hparent : fs.kindAt rp.dropLast = some .dir) : (fs.setAt rp v hv hrp).get rp = v := by
  rw [get_setAt]
  refine Node.get_setAt_self v (fun h => hrp ?_) hparent
  subst h
  rfl

theorem get_append (fs : Fs) (p q : List Name) : fs.get (p ++ q) = (fs.get p).bind (·.get q) :=
  Node.get_append _ p q

end Fs

end LithiumTools
