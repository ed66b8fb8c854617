import Mathlib.Data.List.Basic

/-!
# Paths

Rust's `std::path` on Unix, read through `components()`, and the path the kernel sees, which
keeps a trailing `/`. A real path, where a path resolves to, is a list of names.
-/

namespace LithiumTools

/-- What a directory can list an entry under: not empty, no `/` or NUL, not `.` or `..`. -/
def Name.Valid (s : List Char) : Prop :=
  s ≠ [] ∧ '/' ∉ s ∧ '\x00' ∉ s ∧ s ≠ ['.'] ∧ s ≠ ['.', '.']

instance (s : List Char) : Decidable (Name.Valid s) :=
  inferInstanceAs (Decidable (_ ∧ _))

structure Name where
  chars : List Char
  valid : Name.Valid chars
  deriving DecidableEq

inductive Component
  | rootDir
  | curDir
  | parentDir
  | normal (name : Name)
  deriving DecidableEq

/-- One `/`-separated part of a path after the first: empty parts and `.` vanish. -/
def Component.ofPart (part : List Char) : Option Component :=
  if part = [] ∨ part = ['.'] then none
  else if part = ['.', '.'] then some .parentDir
  else if h : Name.Valid part then some (.normal ⟨part, h⟩)
  else none

/-- `Path::components`: a leading `/` is the root, a leading `.` of a relative path is kept. -/
def components (s : List Char) : List Component :=
  match s with
  | '/' :: rest => .rootDir :: (rest.splitOn '/').filterMap Component.ofPart
  | _ =>
    (if (s.splitOn '/').head? = some ['.'] then [.curDir] else []) ++
      (s.splitOn '/').filterMap Component.ofPart

/-- A relative path spelled out of names, `/` between them, as tar stores an entry's path. -/
def joinNames (ns : List Name) : List Char :=
  ['/'].intercalate (ns.map Name.chars)

def realComponents (rp : List Name) : List Component :=
  .rootDir :: rp.map .normal

def stripPrefix (p base : List Component) : Option (List Component) :=
  if base.isPrefixOf p then some (p.drop base.length) else none

def parent (p : List Component) : Option (List Component) :=
  match p.getLast? with
  | none | some .rootDir => none
  | some _ => some p.dropLast

/-- `Path::join`: an absolute path replaces the base. -/
def joinPath (base p : List Component) : List Component :=
  if p.head? = some .rootDir then p else base ++ p

def endsWith (s suffix : List Char) : Bool :=
  suffix.isSuffixOf s

/-- A string ending in `/` or `/.`: the kernel takes its last name for a directory, which
`Path::components` forgets. -/
def endsInDir (s : List Char) : Bool :=
  endsWith s ['/'] || endsWith s ['/', '.']

/-- The path the kernel resolves for the string a system call is given: the components, and one
`.` more after a trailing `/` or `/.`, so that the last name must be a directory. -/
def sysPath (s : List Char) : List Component :=
  if endsInDir s then components s ++ [.curDir] else components s

@[simp]
theorem Component.ofPart_chars (n : Name) : Component.ofPart n.chars = some (.normal n) := by
  obtain ⟨s, hne, hslash, hnul, hdot, hdotdot⟩ := n
  simp [Component.ofPart, hne, hdot, hdotdot, hslash, hnul, Name.Valid]

theorem filterMap_ofPart_chars (ns : List Name) :
    (ns.map Name.chars).filterMap Component.ofPart = ns.map .normal := by
  induction ns <;> simp [*]

theorem components_of_head?_ne {s : List Char} (h : s.head? ≠ some '/') :
    components s = (if (s.splitOn '/').head? = some ['.'] then [.curDir] else []) ++
      (s.splitOn '/').filterMap Component.ofPart := by
  unfold components
  split
  · simp at h
  · rfl

theorem joinNames_cons (n : Name) (rest : List Name) :
    ∃ t, joinNames (n :: rest) = n.chars ++ t := by
  cases rest <;> simp [joinNames, List.intercalate]

theorem components_joinNames (ns : List Name) : components (joinNames ns) = ns.map .normal := by
  cases ns with
  | nil => rfl
  | cons n rest =>
    have hslash : ∀ l ∈ (n :: rest).map Name.chars, '/' ∉ l := by
      simp only [List.mem_map]
      rintro _ ⟨m, -, rfl⟩
      exact m.valid.2.1
    have hhead : (joinNames (n :: rest)).head? ≠ some '/' := by
      obtain ⟨t, ht⟩ := joinNames_cons n rest
      obtain ⟨c, cs, hc⟩ := List.exists_cons_of_ne_nil n.valid.1
      rw [ht, hc]
      rintro ⟨⟩
      exact n.valid.2.1 (hc ▸ List.mem_cons_self _ _)
    have hsplit : (joinNames (n :: rest)).splitOn '/' = (n :: rest).map Name.chars :=
      List.splitOn_intercalate _ '/' hslash (by simp)
    rw [components_of_head?_ne hhead, hsplit, filterMap_ofPart_chars]
    simp [n.valid.2.2.2.1]

theorem joinNames_cons_cons (n m : Name) (rest : List Name) :
    joinNames (n :: m :: rest) = n.chars ++ '/' :: joinNames (m :: rest) := by
  simp [joinNames, List.intercalate, List.intersperse]

theorem mem_joinNames {c : Char} :
    ∀ {ns : List Name}, c ∈ joinNames ns → c = '/' ∨ ∃ n ∈ ns, c ∈ n.chars
  | [], h => by simp [joinNames, List.intercalate] at h
  | [n], h => .inr ⟨n, List.mem_singleton_self n, by simpa [joinNames, List.intercalate] using h⟩
  | n :: m :: rest, h => by
    rw [joinNames_cons_cons, List.mem_append, List.mem_cons] at h
    rcases h with h | h | h
    · exact .inr ⟨n, List.mem_cons_self n _, h⟩
    · exact .inl h
    · rcases mem_joinNames h with h | ⟨k, hk, hc⟩
      · exact .inl h
      · exact .inr ⟨k, List.mem_cons_of_mem n hk, hc⟩

theorem getLast?_joinNames_ne : ∀ {ns : List Name}, (joinNames ns).getLast? ≠ some '/'
  | [] => by simp [joinNames, List.intercalate]
  | [n] => fun h => n.valid.2.1
    (List.mem_of_getLast?_eq_some (by simpa [joinNames, List.intercalate] using h))
  | n :: m :: rest => by
    have hrest : (joinNames (m :: rest)).getLast? ≠ some '/' := getLast?_joinNames_ne
    obtain ⟨t, ht⟩ := joinNames_cons m rest
    obtain ⟨c, cs, hc⟩ := List.exists_cons_of_ne_nil m.valid.1
    rw [joinNames_cons_cons, List.getLast?_append_of_ne_nil _ (List.cons_ne_nil _ _)]
    rw [ht, hc] at hrest ⊢
    rwa [List.cons_append, List.getLast?_cons_cons]

theorem splitOn_append_slash (d s : List Char) :
    (d ++ '/' :: s).splitOn '/' = d.splitOn '/' ++ s.splitOn '/' := by
  induction d with
  | nil => simp [List.splitOn]
  | cons c d ih =>
    simp only [List.splitOn] at ih ⊢
    rw [List.cons_append, List.splitOnP_cons, List.splitOnP_cons, ih]
    split
    · rfl
    · obtain ⟨x, xs, hx⟩ := List.exists_cons_of_ne_nil (List.splitOnP_ne_nil (· == '/') d)
      rw [hx]
      rfl

theorem components_append_slash {d : List Char} (hd : d ≠ []) (s : List Char) :
    components (d ++ '/' :: s) = components d ++ (s.splitOn '/').filterMap Component.ofPart := by
  obtain ⟨c, d, rfl⟩ := List.exists_cons_of_ne_nil hd
  by_cases hc : c = '/'
  · subst hc
    simp [components, splitOn_append_slash]
  · have hhead : ∀ t, (c :: t).head? ≠ some '/' := by simpa using hc
    rw [List.cons_append, components_of_head?_ne (hhead _), components_of_head?_ne (hhead _),
      ← List.cons_append, splitOn_append_slash]
    have hne : (c :: d).splitOn '/' ≠ [] := List.splitOnP_ne_nil _ _
    rw [List.head?_append_of_ne_nil _ hne, List.filterMap_append, List.append_assoc]

theorem splitOn_chars (n : Name) : n.chars.splitOn '/' = [n.chars] :=
  List.splitOnP_eq_single _ _ fun c hc h => n.valid.2.1 (by simpa [(beq_iff_eq).1 h] using hc)

theorem components_append_name {d : List Char} (hd : d ≠ []) (n : Name) :
    components (d ++ '/' :: n.chars) = components d ++ [.normal n] := by
  rw [components_append_slash hd, splitOn_chars]
  simp

theorem endsInDir_eq_false {s : List Char} {c : Char} (hc : s.getLast? = some c) (hslash : c ≠ '/')
    (hdot : c ≠ '.') : endsInDir s = false := by
  have hlast : ∀ t : List Char, ∀ d, t <:+ s → t.getLast? = some d → d = c := by
    rintro t d ⟨u, rfl⟩ ht
    rw [List.getLast?_append, ht] at hc
    exact Option.some.inj hc
  rw [endsInDir, Bool.or_eq_false_iff, endsWith, endsWith, Bool.eq_false_iff, Bool.eq_false_iff]
  simp only [ne_eq, List.isSuffixOf_iff_suffix]
  exact ⟨fun h => hslash (hlast _ _ h rfl).symm, fun h => hdot (hlast _ _ h rfl).symm⟩

theorem sysPath_of_endsInDir {s : List Char} (h : endsInDir s = false) :
    sysPath s = components s := by
  simp [sysPath, h]

theorem sysPath_append_of_getLast {d t : List Char} {c : Char} (ht : t.getLast? = some c)
    (hslash : c ≠ '/') (hdot : c ≠ '.') : sysPath (d ++ t) = components (d ++ t) :=
  sysPath_of_endsInDir (endsInDir_eq_false (by rw [List.getLast?_append, ht]; rfl) hslash hdot)

end LithiumTools
