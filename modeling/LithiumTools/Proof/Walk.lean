import LithiumTools.Proof.Compress

/-!
# The order of a directory walk

Two trees that differ only in the order of their listings give walks, and archives, that are
permutations of each other.
-/

namespace LithiumTools

namespace Node

theorem lookup_eq_some_iff {es : List (Name × Node)} (hnd : (es.map Prod.fst).Nodup) {n : Name}
    {c : Node} : es.lookup n = some c ↔ (n, c) ∈ es := by
  induction es with
  | nil => simp
  | cons e es ih =>
    obtain ⟨k, d⟩ := e
    simp only [List.map_cons, List.nodup_cons] at hnd
    rw [lookup_cons_eq, List.mem_cons]
    by_cases hn : n = k
    · subst hn
      have hc : (n, c) ∉ es := fun h => hnd.1 (List.mem_map_of_mem Prod.fst h)
      simp [hc, eq_comm]
    · simp [hn, ih hnd.2]

theorem distinctNames_get {nd c : Node} {q : List Name} (h : nd.distinctNames = true)
    (hq : nd.get q = some c) : c.distinctNames = true := by
  induction q generalizing nd with
  | nil => simp only [get_nil, Option.some.injEq] at hq; exact hq ▸ h
  | cons n q ih =>
    cases nd with
    | dir es =>
      obtain ⟨c', hc', hq⟩ := Option.bind_eq_some.mp hq
      have hd := (distinctNames_dir_iff es).1 h
      exact ih (hd.2 _ ((lookup_eq_some_iff hd.1).1 hc')) hq
    | file d m => simp [get] at hq
    | symlink t => simp [get] at hq

theorem nil_not_mem_walkEntries (es : List (Name × Node)) : [] ∉ walkNames.walkEntries es := by
  induction es with
  | nil => simp
  | cons e es ih => obtain ⟨n, c⟩ := e; simp [ih]

theorem nil_not_mem_walkNames (nd : Node) : [] ∉ nd.walkNames := by
  cases nd <;> simp [nil_not_mem_walkEntries]

theorem cons_mem_walkEntries {es : List (Name × Node)} {n : Name} {r : List Name} :
    n :: r ∈ walkNames.walkEntries es ↔ ∃ c, (n, c) ∈ es ∧ (r = [] ∨ r ∈ c.walkNames) := by
  induction es with
  | nil => simp
  | cons e es ih =>
    obtain ⟨k, d⟩ := e
    simp only [walkEntries_cons, List.cons_append, List.mem_cons, List.mem_append, List.mem_map,
      ih, List.cons.injEq, Prod.mk.injEq]
    constructor
    · rintro (⟨rfl, rfl⟩ | ⟨a, ha, rfl, rfl⟩ | ⟨c, hc, hr⟩)
      · exact ⟨d, .inl ⟨rfl, rfl⟩, .inl rfl⟩
      · exact ⟨d, .inl ⟨rfl, rfl⟩, .inr ha⟩
      · exact ⟨c, .inr hc, hr⟩
    · rintro ⟨c, ⟨rfl, rfl⟩ | hc, rfl | hr⟩
      · exact .inl ⟨rfl, rfl⟩
      · exact .inr (.inl ⟨r, hr, rfl, rfl⟩)
      · exact .inr (.inr ⟨c, hc, .inl rfl⟩)
      · exact .inr (.inr ⟨c, hc, .inr hr⟩)

theorem mem_walkNames {nd : Node} (h : nd.distinctNames = true) {q : List Name} :
    q ∈ nd.walkNames ↔ q ≠ [] ∧ nd.get q ≠ none := by
  induction q generalizing nd with
  | nil => simp [nil_not_mem_walkNames]
  | cons n r ih =>
    cases nd with
    | dir es =>
      have hd := (distinctNames_dir_iff es).1 h
      simp only [walkNames_dir, cons_mem_walkEntries, get_dir_cons, ne_eq, List.cons_ne_nil,
        not_false_eq_true, true_and]
      constructor
      · rintro ⟨c, hc, hr⟩
        rw [(lookup_eq_some_iff hd.1).2 hc, Option.some_bind]
        rcases hr with rfl | hr
        · simp
        · exact ((ih (hd.2 _ hc)).1 hr).2
      · intro hget
        cases hc : es.lookup n with
        | none => simp [hc] at hget
        | some c =>
        rw [hc, Option.some_bind] at hget
        have hmem := (lookup_eq_some_iff hd.1).1 hc
        refine ⟨c, hmem, ?_⟩
        by_cases hr : r = []
        · exact .inl hr
        · exact .inr ((ih (hd.2 _ hmem)).2 ⟨hr, hget⟩)
    | file d m => simp [get]
    | symlink t => simp [get]

mutual

theorem nodup_walkNames : ∀ nd : Node, nd.distinctNames = true → nd.walkNames.Nodup
  | .dir es, h => nodup_walkEntries es h
  | .file _ _, _ => List.nodup_nil
  | .symlink _, _ => List.nodup_nil

theorem nodup_walkEntries : ∀ es : List (Name × Node), (Node.dir es).distinctNames = true →
    (walkNames.walkEntries es).Nodup
  | [], _ => List.nodup_nil
  | (n, c) :: es, h => by
    obtain ⟨hnames, hc⟩ := (distinctNames_dir_iff _).1 h
    simp only [List.map_cons, List.nodup_cons] at hnames
    have hn : ∀ r, n :: r ∉ walkNames.walkEntries es := fun r hr => by
      obtain ⟨c', hc', -⟩ := cons_mem_walkEntries.1 hr
      exact hnames.1 (List.mem_map_of_mem Prod.fst hc')
    have hes : (Node.dir es).distinctNames = true :=
      (distinctNames_dir_iff es).2 ⟨hnames.2, fun e he => hc e (List.mem_cons_of_mem _ he)⟩
    have hbelow : ((walkNames c).map (n :: ·)).Nodup :=
      List.Nodup.map List.cons_injective (nodup_walkNames c (hc _ (List.mem_cons_self _ _)))
    rw [walkEntries_cons, List.nodup_append, List.nodup_cons]
    refine ⟨⟨fun hmem => ?_, hbelow⟩, nodup_walkEntries es hes, ?_⟩
    · obtain ⟨r, hr, hr'⟩ := List.mem_map.1 hmem
      exact nil_not_mem_walkNames c ((List.cons.inj hr').2 ▸ hr)
    · rintro _ hx hy
      rcases List.mem_cons.1 hx with rfl | hx
      · exact hn [] hy
      · obtain ⟨r, -, rfl⟩ := List.mem_map.1 hx
        exact hn r hy

end

theorem lookup_eq_of_perm {es₁ es₂ : List (Name × Node)} (hnd : (es₁.map Prod.fst).Nodup)
    (hp : es₁.Perm es₂) (n : Name) : es₁.lookup n = es₂.lookup n :=
  Option.ext fun c => by
    rw [Option.mem_def, Option.mem_def, lookup_eq_some_iff hnd,
      lookup_eq_some_iff ((hp.map Prod.fst).nodup_iff.1 hnd), hp.mem_iff]

end Node

/-! ### Two trees that differ only in the order of their listings -/

namespace Fs

/-- The same names, contents and metadata at every path: the two file systems differ at most in
the order in which their directories list their entries. -/
structure SameTree (fs₁ fs₂ : Fs) : Prop where
  cwd_eq : fs₁.cwd = fs₂.cwd
  shapeAt_eq : ∀ q, fs₁.shapeAt q = fs₂.shapeAt q

variable {fs₁ fs₂ : Fs} {fl : Bool}

theorem SameTree.kindAt_eq (h : fs₁.SameTree fs₂) (q : List Name) :
    fs₁.kindAt q = fs₂.kindAt q := by
  rw [kindAt_eq_map_shapeAt, kindAt_eq_map_shapeAt, h.shapeAt_eq]

theorem walk_congr (h : ∀ q, fs₁.kindAt q = fs₂.kindAt q) (cur : List Name) (cs : List Component) :
    fs₁.walk fl cur cs = fs₂.walk fl cur cs := by
  induction cs generalizing cur with
  | nil => rfl
  | cons c cs ih => cases c <;> simp only [walk, h, ih]

theorem resolve_congr (h : ∀ q, fs₁.kindAt q = fs₂.kindAt q) (links : Nat) (cur : List Name)
    (cs : List Component) : fs₁.resolve fl links cur cs = fs₂.resolve fl links cur cs := by
  induction links generalizing cur cs with
  | zero => rw [resolve, resolve, walk_congr h]
  | succ k ih =>
    rw [resolve, resolve, walk_congr h]
    cases fs₂.walk fl cur cs <;> simp only [ih]

theorem SameTree.locate_eq (h : fs₁.SameTree fs₂) (p : List Component) :
    fs₁.locate fl p = fs₂.locate fl p := by
  simp only [locate, h.cwd_eq, resolve_congr h.kindAt_eq]

theorem SameTree.stat_cases (h : fs₁.SameTree fs₂) (p : List Component) :
    (∃ e, fs₁.stat p = .error e ∧ fs₂.stat p = .error e) ∨
      ∃ rp nd₁ nd₂, fs₁.stat p = .ok (rp, nd₁) ∧ fs₂.stat p = .ok (rp, nd₂) ∧
        nd₁.shape = nd₂.shape := by
  cases hloc : fs₂.locate true p with
  | error e => exact .inl ⟨e, stat_of_locate_error (by rw [h.locate_eq, hloc]),
      stat_of_locate_error hloc⟩
  | ok rp =>
    have hloc₁ : fs₁.locate true p = .ok rp := by rw [h.locate_eq, hloc]
    have hs := h.shapeAt_eq rp
    simp only [shapeAt] at hs
    cases h₁ : fs₁.get rp with
    | none =>
      cases h₂ : fs₂.get rp with
      | none => exact .inl ⟨.notFound, stat_of_get_none hloc₁ h₁, stat_of_get_none hloc h₂⟩
      | some _ => simp [h₁, h₂] at hs
    | some nd₁ =>
      cases h₂ : fs₂.get rp with
      | none => simp [h₁, h₂] at hs
      | some nd₂ =>
        exact .inr ⟨rp, nd₁, nd₂, stat_of_get hloc₁ h₁, stat_of_get hloc h₂,
          by simpa [h₁, h₂] using hs⟩

theorem SameTree.isFile_eq (h : fs₁.SameTree fs₂) (p : List Component) :
    fs₁.isFile p = fs₂.isFile p := by
  rcases h.stat_cases p with ⟨e, h₁, h₂⟩ | ⟨rp, nd₁, nd₂, h₁, h₂, hs⟩
  · simp [isFile, h₁, h₂]
  · simp only [isFile, h₁, h₂]
    cases nd₁ <;> cases nd₂ <;> simp_all [Node.shape]

theorem SameTree.readAt_eq (h : fs₁.SameTree fs₂) (rp : List Name) :
    fs₁.readAt rp = fs₂.readAt rp := by
  have hs := h.shapeAt_eq rp
  simp only [shapeAt] at hs
  unfold readAt
  cases h₁ : fs₁.get rp with
  | none => cases h₂ : fs₂.get rp <;> simp_all
  | some nd₁ =>
    cases h₂ : fs₂.get rp with
    | none => simp_all
    | some nd₂ =>
      simp only [h₁, h₂, Option.map_some', Option.some.injEq] at hs
      cases nd₁ <;> cases nd₂ <;> simp_all [Node.shape]

theorem SameTree.walkNames_perm (h : fs₁.SameTree fs₂) {rp : List Name} {nd₁ nd₂ : Node}
    (h₁ : fs₁.get rp = some nd₁) (h₂ : fs₂.get rp = some nd₂) :
    nd₁.walkNames.Perm nd₂.walkNames := by
  have hd₁ := Node.distinctNames_get fs₁.distinct h₁
  have hd₂ := Node.distinctNames_get fs₂.distinct h₂
  refine (List.perm_ext_iff_of_nodup (Node.nodup_walkNames _ hd₁)
    (Node.nodup_walkNames _ hd₂)).2 fun q => ?_
  have hq : nd₁.get q ≠ none ↔ nd₂.get q ≠ none := by
    have hs := h.shapeAt_eq (rp ++ q)
    simp only [shapeAt, get_append, h₁, h₂, Option.some_bind] at hs
    revert hs
    cases nd₁.get q <;> cases nd₂.get q <;> simp
  rw [Node.mem_walkNames hd₁, Node.mem_walkNames hd₂, hq]

end Fs

open Fs

variable {fs₁ fs₂ : Fs}

theorem Fs.SameTree.walkDir_perm (h : fs₁.SameTree fs₂) (root : List Component) :
    (walkDir fs₁ root).Perm (walkDir fs₂ root) := by
  rcases h.stat_cases root with ⟨e, h₁, h₂⟩ | ⟨rp, nd₁, nd₂, h₁, h₂, hs⟩
  · simp [walkDir, h₁, h₂]
  · have hw := h.walkNames_perm (get_of_stat h₁).2 (get_of_stat h₂).2
    cases nd₁ <;> cases nd₂ <;> simp only [Node.shape, reduceCtorEq, Node.dir.injEq,
      Node.file.injEq, Node.symlink.injEq] at hs
    · obtain ⟨rfl, rfl⟩ := hs
      simp only [walkDir, h₁, h₂, List.Perm.refl]
    · simp only [walkDir, h₁, h₂]
      exact (hw.map _).cons _
    · simp only [walkDir, h₁, h₂, hs, List.Perm.refl]

theorem Fs.SameTree.appendEntry_eq (h : fs₁.SameTree fs₂) (input p : List Component) :
    appendEntry fs₁ input p = appendEntry fs₂ input p := by
  rcases h.stat_cases p with ⟨e, h₁, h₂⟩ | ⟨rp, nd₁, nd₂, h₁, h₂, -⟩
  · simp only [appendEntry, h₁, h₂, bind, Except.bind]
  · simp only [appendEntry, h₁, h₂, h.readAt_eq, bind, Except.bind]

theorem appendEntries_eq_mapM (fs : Fs) (input : List Component) (ps : List (List Component)) :
    appendEntries fs input ps = (ps.filter (fs.isFile ·)).mapM (appendEntry fs input) := by
  induction ps with
  | nil => rfl
  | cons p ps ih =>
    by_cases hp : fs.isFile p <;>
      simp only [appendEntries, hp, ih, List.filter_cons, if_true, if_false, List.mapM_cons,
        Bool.false_eq_true]

theorem mapM_ok_of_perm {ε α β : Type} {f : α → Except ε β} {l₁ l₂ : List α} (hp : l₁.Perm l₂)
    {r₁ : List β} (h : l₁.mapM f = .ok r₁) : ∃ r₂, l₂.mapM f = .ok r₂ ∧ r₁.Perm r₂ := by
  induction hp generalizing r₁ with
  | nil => exact ⟨r₁, h, .refl _⟩
  | cons x _ ih =>
    simp only [List.mapM_cons, except_bind_eq_ok] at h
    obtain ⟨b, hb, bs, hbs, hr⟩ := h
    cases hr
    obtain ⟨bs', hbs', hp'⟩ := ih hbs
    exact ⟨b :: bs', by simp only [List.mapM_cons, hb, hbs', bind, Except.bind, pure, Except.pure],
      hp'.cons b⟩
  | swap x y l =>
    simp only [List.mapM_cons, except_bind_eq_ok] at h
    obtain ⟨b, hb, _, ⟨a, ha, bs, hbs, hr'⟩, hr⟩ := h
    cases hr'
    cases hr
    exact ⟨a :: b :: bs, by simp only [List.mapM_cons, ha, hb, hbs, bind, Except.bind, pure,
      Except.pure], .swap _ _ _⟩
  | trans _ _ ih₁ ih₂ =>
    obtain ⟨r, h', hp₁⟩ := ih₁ h
    obtain ⟨r', h'', hp₂⟩ := ih₂ h'
    exact ⟨r', h'', hp₁.trans hp₂⟩

/-- **The archive depends on the listing order only up to permutation.** -/
theorem dirEntries_perm_of_sameTree (h : fs₁.SameTree fs₂) {input : List Char}
    {es₁ : List TarEntry} (hes : dirEntries fs₁ input = .ok es₁) :
    ∃ es₂, dirEntries fs₂ input = .ok es₂ ∧ es₁.Perm es₂ := by
  rw [dirEntries, appendEntries_eq_mapM] at hes
  obtain ⟨es₂, h₂, hp⟩ := mapM_ok_of_perm
    ((h.walkDir_perm (components input)).filter (fs₁.isFile ·)) hes
  have hfile : (fs₁.isFile ·) = (fs₂.isFile ·) := funext h.isFile_eq
  have happend : appendEntry fs₁ (components input) = appendEntry fs₂ (components input) :=
    funext (h.appendEntry_eq _)
  rw [hfile, happend] at h₂
  exact ⟨es₂, by rw [dirEntries, appendEntries_eq_mapM]; exact h₂, hp⟩


/-! ### Two listings of one directory -/

def fsAB : Fs where
  root := [(⟨['d'], by decide⟩, .dir [(⟨['a'], by decide⟩, .file [1] .created),
    (⟨['b'], by decide⟩, .file [2] .created)])]
  cwd := []
  now := 0
  distinct := rfl
  cwd_dir := rfl

def fsBA : Fs where
  root := [(⟨['d'], by decide⟩, .dir [(⟨['b'], by decide⟩, .file [2] .created),
    (⟨['a'], by decide⟩, .file [1] .created)])]
  cwd := []
  now := 0
  distinct := rfl
  cwd_dir := rfl

theorem sameTree_fsAB_fsBA : fsAB.SameTree fsBA := by
  refine ⟨rfl, fun q => ?_⟩
  rcases q with _ | ⟨n, _ | ⟨m, r⟩⟩
  · rfl
  · simp only [shapeAt, Fs.get, fsAB, fsBA, Node.get_dir_cons, Node.lookup_cons_eq]
    split_ifs <;> rfl
  · simp only [shapeAt, Fs.get, fsAB, fsBA, Node.get_dir_cons, Node.lookup_cons_eq]
    split_ifs
    · simp only [Option.some_bind, Node.get_dir_cons]
      rw [Node.lookup_eq_of_perm (by decide) (List.Perm.swap _ _ [])]
    · rfl

def oneByteEntry (n : Char) (b : UInt8) : TarEntry :=
  { path := [n], kind := .regular, linkName := none, ustar := false, meta := .created, data := [b] }

theorem storable_oneByteEntry {n : Char} (hn : n ≠ '\x00') (b : UInt8) :
    (oneByteEntry n b).Storable :=
  ⟨by simpa [oneByteEntry] using hn.symm, fun _ h => by cases h⟩

theorem dirEntries_perm_of_sameTree_fsAB :
    fsAB.SameTree fsBA ∧
      dirEntries fsAB "/d".toList = .ok [oneByteEntry 'a' 1, oneByteEntry 'b' 2] ∧
      ∃ es₂, dirEntries fsBA "/d".toList = .ok es₂ ∧
        [oneByteEntry 'a' 1, oneByteEntry 'b' 2].Perm es₂ :=
  ⟨sameTree_fsAB_fsBA, rfl, dirEntries_perm_of_sameTree sameTree_fsAB_fsBA rfl⟩

theorem dirEntries_follow_listing_order :
    fsAB.SameTree fsBA ∧
      dirEntries fsAB "/d".toList = .ok [oneByteEntry 'a' 1, oneByteEntry 'b' 2] ∧
      dirEntries fsBA "/d".toList = .ok [oneByteEntry 'b' 2, oneByteEntry 'a' 1] ∧
      ∀ (df : Deflate) (tf : TarFormat) (level : Nat),
        gzipStream df level (archiveBytes tf [oneByteEntry 'a' 1, oneByteEntry 'b' 2]) ≠
          gzipStream df level (archiveBytes tf [oneByteEntry 'b' 2, oneByteEntry 'a' 1]) := by
  refine ⟨sameTree_fsAB_fsBA, rfl, rfl, fun df tf level h => ?_⟩
  have hst : ∀ e ∈ [oneByteEntry 'a' 1, oneByteEntry 'b' 2], e.Storable := by
    simp only [List.mem_cons, List.mem_singleton, List.not_mem_nil, or_false]
    rintro e (rfl | rfl) <;> exact storable_oneByteEntry (by decide) _
  have heq := archiveBytes_inj tf hst (fun e he => hst e ((List.Perm.swap _ _ []).subset he))
    (gzipStream_inj df level h)
  exact absurd (congrArg (List.map TarEntry.path) heq) (by decide)

end LithiumTools
