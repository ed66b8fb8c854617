import LithiumTools.Compressor
import LithiumTools.Proof.Calls

/-!
# Where unpacking writes

`create_dir_all` adds empty directories on the way to the output (`Fs.AddsDirsOn`), and
`Archive::unpack` writes only below the destination's real path (`Fs.ChangesBelow`).
-/

namespace LithiumTools

open Fs

namespace Fs

/-- `fs'` differs from `fs` only strictly below `rd`. -/
structure ChangesBelow (rd : List Name) (fs fs' : Fs) : Prop where
  cwd_eq : fs'.cwd = fs.cwd
  shapeAt_eq : ∀ q, ¬ (rd <+: q ∧ q ≠ rd) → fs'.shapeAt q = fs.shapeAt q

structure AddsDirs (fs fs' : Fs) : Prop where
  cwd_eq : fs'.cwd = fs.cwd
  shapeAt_eq : ∀ q, fs'.shapeAt q = fs.shapeAt q ∨
    (fs.shapeAt q = none ∧ fs'.shapeAt q = some (.dir []))

variable {rd : List Name} {fs fs' fs'' : Fs}

theorem ChangesBelow.refl (rd : List Name) (fs : Fs) : fs.ChangesBelow rd fs :=
  ⟨rfl, fun _ _ => rfl⟩

theorem ChangesBelow.trans (h₁ : fs.ChangesBelow rd fs') (h₂ : fs'.ChangesBelow rd fs'') :
    fs.ChangesBelow rd fs'' :=
  ⟨h₂.cwd_eq.trans h₁.cwd_eq, fun q hq => (h₂.shapeAt_eq q hq).trans (h₁.shapeAt_eq q hq)⟩

theorem ChangesBelow.kindAt_rd (h : fs.ChangesBelow rd fs') : fs'.kindAt rd = fs.kindAt rd := by
  rw [kindAt_eq_map_shapeAt, kindAt_eq_map_shapeAt, h.shapeAt_eq rd fun h => h.2 rfl]

theorem AddsDirs.refl (fs : Fs) : fs.AddsDirs fs :=
  ⟨rfl, fun _ => .inl rfl⟩

theorem AddsDirs.grows (h : fs.AddsDirs fs') : fs.Grows fs' := by
  refine ⟨h.cwd_eq, fun q => ?_⟩
  rcases h.shapeAt_eq q with h | ⟨hnone, hnew⟩
  · exact .inl (by rw [kindAt_eq_map_shapeAt, kindAt_eq_map_shapeAt, h])
  · exact .inr ⟨by simp [kindAt_eq_map_shapeAt, hnone], .inl (by simp [kindAt_eq_map_shapeAt, hnew,
      Node.kind])⟩

theorem AddsDirs.trans (h₁ : fs.AddsDirs fs') (h₂ : fs'.AddsDirs fs'') : fs.AddsDirs fs'' := by
  refine ⟨h₂.cwd_eq.trans h₁.cwd_eq, fun q => ?_⟩
  rcases h₂.shapeAt_eq q with h | ⟨hnone, hnew⟩
  · rw [h]
    exact h₁.shapeAt_eq q
  · rcases h₁.shapeAt_eq q with h | ⟨-, h⟩
    · exact .inr ⟨h ▸ hnone, hnew⟩
    · simp [h] at hnone

theorem shapeAt_eq_none {q : List Name} : fs.shapeAt q = none ↔ fs.kindAt q = none := by
  simp [kindAt_eq_map_shapeAt]

/-- `fs'` is `fs` with new empty directories, each where a leading part of `p` leads, its last
link not followed. -/
structure AddsDirsOn (p : List Component) (fs fs' : Fs) extends fs.AddsDirs fs' : Prop where
  on_path : ∀ q, fs.shapeAt q = none → fs'.shapeAt q = some (.dir []) →
    ∃ pre, pre <+: p ∧ fs'.locate false pre = .ok q

theorem AddsDirsOn.refl (p : List Component) (fs : Fs) : fs.AddsDirsOn p fs :=
  ⟨.refl fs, fun _ hn hd => by simp [hn] at hd⟩

theorem AddsDirsOn.trans {p : List Component} (h₁ : fs.AddsDirsOn p fs')
    (h₂ : fs'.AddsDirsOn p fs'') :
    fs.AddsDirsOn p fs'' := by
  refine ⟨h₁.toAddsDirs.trans h₂.toAddsDirs, fun q hn hd => ?_⟩
  rcases h₁.shapeAt_eq q with h | ⟨-, h⟩
  · exact h₂.on_path q (h.trans hn) hd
  · obtain ⟨pre, hpre, hloc⟩ := h₁.on_path q hn h
    exact ⟨pre, hpre, locate_of_grows h₂.grows hloc⟩

theorem Updates.changesBelow {rp : List Name} {v : Option Node} (h : fs.Updates fs' rp v)
    (hin : rd <+: rp) (hne : rp ≠ rd) : fs.ChangesBelow rd fs' := by
  refine ⟨h.cwd_eq, fun q hq => h.shapeAt_eq q fun hp => hq ⟨hin.trans hp, ?_⟩⟩
  rintro rfl
  exact hne (hp.eq_of_length (Nat.le_antisymm hp.length_le hin.length_le))

end Fs

/-! ### Steps of a procedure -/

section Steps

variable {ε α β : Type} {rd : List Name} {fs : Fs}

theorem changesBelow_bind {x : EStateM ε Fs α} {f : α → EStateM ε Fs β}
    (hx : fs.ChangesBelow rd (stateOf (x fs)))
    (hf : ∀ a fs₁, x fs = .ok a fs₁ → fs.ChangesBelow rd fs₁ →
      fs₁.ChangesBelow rd (stateOf (f a fs₁))) :
    fs.ChangesBelow rd (stateOf ((x >>= f) fs)) := by
  cases hx' : x fs with
  | ok a fs₁ =>
    simp only [hx', stateOf] at hx
    simpa [bind, EStateM.bind, hx'] using hx.trans (hf a fs₁ hx' hx)
  | error e fs₁ => simpa [bind, EStateM.bind, hx'] using hx

theorem stateOf_query (f : Fs → Except ε α) : stateOf (Fs.query f fs) = fs := by
  unfold Fs.query
  split <;> rfl

theorem changesBelow_query_bind {f : Fs → Except ε α} {g : α → EStateM ε Fs β}
    (hg : ∀ a, f fs = .ok a → fs.ChangesBelow rd (stateOf (g a fs))) :
    fs.ChangesBelow rd (stateOf ((Fs.query f >>= g) fs)) := by
  cases hf : f fs with
  | ok a => rw [query_bind_of_ok hf]; exact hg a hf
  | error e => rw [query_bind_of_error hf]; exact .refl rd fs

end Steps

/-! ### `create_dir_all` -/

section CreateDirAll

variable {rd : List Name} {fs fs' : Fs}

theorem createDirAll_go_of_exists {c : Component} {rcs : List Component} {rp : List Name}
    (hloc : fs.locate false (c :: rcs).reverse = .ok rp) (hk : fs.kindAt rp ≠ none) :
    stateOf (Fs.createDirAll.go (c :: rcs) fs) = fs := by
  simp only [Fs.createDirAll.go, mkdir_of_exists hloc hk]
  split <;> rfl

theorem createDirAll_of_mkdir {p : List Component} (hp : p ≠ []) (h : fs.mkdir p = .ok fs') :
    Fs.createDirAll p fs = .ok () fs' := by
  obtain ⟨c, rcs, hrev⟩ := List.exists_cons_of_ne_nil (List.reverse_ne_nil_iff.mpr hp)
  have hpath : (c :: rcs).reverse = p := by rw [← hrev, List.reverse_reverse]
  simp only [Fs.createDirAll, hrev, createDirAll.go, hpath, h]

end CreateDirAll

/-! ### Where a call lands -/

namespace Fs

variable {rd : List Name} {fs fs' : Fs}

/-- Every real path that `t`, its last link not followed, can lead to lies strictly below
`rd`. -/
def LandsBelow (rd : List Name) (fs : Fs) (t : List Component) : Prop :=
  ∀ rp, fs.locate false t = .ok rp → rd <+: rp ∧ rp ≠ rd

theorem landsBelow_of_parent {p : List Component} {n : Name} {cp : List Name} (hp : p ≠ [])
    (hcp : fs.locate true p = .ok cp) (hin : rd <+: cp) :
    fs.LandsBelow rd (p ++ [.normal n]) := by
  intro rp h
  obtain ⟨cp', hcp', -, rfl⟩ := locate_append_normal hp h
  rw [hcp] at hcp'
  cases hcp'
  refine ⟨hin.trans (List.prefix_append _ _), fun heq => ?_⟩
  have hlen := congrArg List.length heq
  simp only [List.length_append, List.length_singleton] at hlen
  have := hin.length_le
  omega

theorem locate_of_removeFile {p : List Component} {n : Name} {rp : List Name} (hp : p ≠ [])
    (hrm : fs.removeFile (p ++ [.normal n]) = .ok fs')
    (h : fs'.locate false (p ++ [.normal n]) = .ok rp) :
    fs.locate false (p ++ [.normal n]) = .ok rp := by
  obtain ⟨x, hx, -, -, hu⟩ := removeFile_ok hrm
  obtain ⟨cp, hcp, -, rfl⟩ := locate_append_normal hp hx
  obtain ⟨cp', hcp', hdir, rfl⟩ := locate_append_normal hp h
  rw [locate_of_extends hu.extends_of_none hcp' (by simp [hdir])] at hcp
  cases hcp
  exact hx

theorem LandsBelow.of_removeFile {p : List Component} {n : Name} (hp : p ≠ [])
    (hl : fs.LandsBelow rd (p ++ [.normal n])) (hrm : fs.removeFile (p ++ [.normal n]) = .ok fs') :
    fs'.LandsBelow rd (p ++ [.normal n]) :=
  fun rp h => hl rp (locate_of_removeFile hp hrm h)

theorem LandsBelow.changesBelow {t : List Component} {rp : List Name} {v : Option Node}
    (hl : fs.LandsBelow rd t) (hloc : fs.locate false t = .ok rp) (hu : fs.Updates fs' rp v) :
    fs.ChangesBelow rd fs' :=
  hu.changesBelow (hl rp hloc).1 (hl rp hloc).2

theorem LandsBelow.mkdir {t : List Component} (hl : fs.LandsBelow rd t) (h : fs.mkdir t = .ok fs') :
    fs.ChangesBelow rd fs' := by
  obtain ⟨rp, hloc, -, hu⟩ := mkdir_ok h
  exact hl.changesBelow hloc hu

theorem LandsBelow.createNew {t : List Component} {nd : Node} {hnd : nd.distinctNames = true}
    {rp : List Name} (hl : fs.LandsBelow rd t) (h : fs.createNew t nd hnd = .ok (fs', rp)) :
    fs.ChangesBelow rd fs' := by
  obtain ⟨hloc, -, hu⟩ := createNew_ok h
  exact hl.changesBelow hloc hu

theorem LandsBelow.symlink {t : List Component} {src : List Char} (hl : fs.LandsBelow rd t)
    (h : fs.symlink src t = .ok fs') : fs.ChangesBelow rd fs' := by
  obtain ⟨rp, hloc, -, hu⟩ := symlink_ok h
  exact hl.changesBelow hloc hu

theorem LandsBelow.hardLink {t src : List Component} (hl : fs.LandsBelow rd t)
    (h : fs.hardLink src t = .ok fs') : fs.ChangesBelow rd fs' := by
  obtain ⟨rp, nd, hloc, -, hu⟩ := hardLink_ok h
  exact hl.changesBelow hloc hu

theorem LandsBelow.removeFile {t : List Component} (hl : fs.LandsBelow rd t)
    (h : fs.removeFile t = .ok fs') : fs.ChangesBelow rd fs' := by
  obtain ⟨rp, hloc, -, -, hu⟩ := removeFile_ok h
  exact hl.changesBelow hloc hu

end Fs

/-! ### The destination check -/

section Check

variable {ε α : Type} {rd : List Name} {fs fs₁ : Fs}

theorem canonicalize_ok {p : List Component} {cp : List Name} (h : fs.canonicalize p = .ok cp) :
    fs.locate true p = .ok cp ∧ fs.get cp ≠ none := by
  cases hs : fs.stat p with
  | error e => simp [canonicalize, hs, Functor.map, Except.map] at h
  | ok r =>
    simp only [canonicalize, hs, Functor.map, Except.map, Except.ok.injEq] at h
    subst h
    obtain ⟨hloc, hget⟩ := get_of_stat hs
    exact ⟨hloc, by simp [hget]⟩

theorem canonicalize_realComponents (h : fs.kindAt rd = some .dir) :
    fs.canonicalize (realComponents rd) = .ok rd := by
  obtain ⟨nd, hnd⟩ : ∃ nd, fs.get rd = some nd := by
    cases hg : fs.get rd <;> simp_all [kindAt]
  simp [canonicalize, stat_of_get (locate_realComponents h) hnd, Functor.map, Except.map]

theorem validateInsideDst_ok (hrd : fs.kindAt rd = some .dir) {p : List Component}
    {ct : List Name} (h : Tar.validateInsideDst (realComponents rd) p fs = .ok ct) :
    ct = rd ∧ ∃ cp, fs.locate true p = .ok cp ∧ fs.get cp ≠ none ∧ rd <+: cp := by
  simp only [Tar.validateInsideDst, canonicalize_realComponents hrd, bind, Except.bind] at h
  cases hc : fs.canonicalize p with
  | error e => simp [hc] at h
  | ok cp =>
    simp only [hc] at h
    split at h
    · next hpre =>
      cases h
      exact ⟨rfl, cp, (canonicalize_ok hc).1, (canonicalize_ok hc).2,
        List.isPrefixOf_iff_prefix.1 hpre⟩
    · cases h

theorem discard_apply (x : EStateM ε Fs α) :
    discard x fs = match x fs with
      | .ok _ s => .ok () s
      | .error e s => .error e s := by
  simp only [discard, Functor.mapConst, Function.comp_apply, Function.const, Functor.map,
    EStateM.map]
  cases x fs <;> rfl

theorem discard_query_ok {f : Fs → Except ε α} {u : PUnit}
    (h : discard (Fs.query f) fs = .ok u fs₁) :
    fs₁ = fs ∧ ∃ a, f fs = .ok a := by
  cases hf : f fs with
  | ok a =>
    simp only [discard_apply, Fs.query, hf, EStateM.Result.ok.injEq] at h
    exact ⟨h.2.symm, a, rfl⟩
  | error e => simp [discard_apply, Fs.query, hf] at h

theorem stateOf_discard (x : EStateM ε Fs α) : stateOf (discard x fs) = stateOf (x fs) := by
  rw [discard_apply]
  split <;> simp_all [stateOf]

end Check

/-! ### The directories on the way -/

section Ancestors

variable {rd : List Name} {fs : Fs}

theorem parent_append_normal (p : List Component) (n : Name) :
    parent (p ++ [.normal n]) = some p := by
  simp [parent]

theorem missingAncestors_below (hrd : fs.kindAt rd = some .dir) (L : List Component)
    (hL : ∀ c ∈ L, ∃ n, c = .normal n) :
    ∀ a ∈ Tar.missingAncestors fs (L ++ (realComponents rd).reverse),
      ∃ p n, a = p ++ [.normal n] ∧ p ≠ [] := by
  induction L with
  | nil =>
    obtain ⟨c, rcs, hrev⟩ : ∃ c rcs, (realComponents rd).reverse = c :: rcs :=
      List.exists_cons_of_ne_nil (by simp [realComponents])
    have hpath : (c :: rcs).reverse = realComponents rd := by rw [← hrev, List.reverse_reverse]
    obtain ⟨nd, hnd⟩ : ∃ nd, fs.get rd = some nd := by
      cases hg : fs.get rd <;> simp_all [kindAt]
    have hlstat : fs.lstat (c :: rcs).reverse = .ok (rd, nd) := by
      simp [lstat, hpath, locate_realComponents hrd, hnd, bind, Except.bind, pure, Except.pure]
    intro a ha
    rw [List.nil_append, hrev, Tar.missingAncestors, hlstat] at ha
    simp at ha
  | cons c L ih =>
    obtain ⟨n, rfl⟩ := hL c (List.mem_cons_self _ _)
    have ih' := ih fun c hc => hL c (List.mem_cons_of_mem _ hc)
    intro a ha
    simp only [List.cons_append, Tar.missingAncestors] at ha
    split at ha
    · simp at ha
    · simp only [reduceCtorEq, if_false, List.mem_cons] at ha
      rcases ha with rfl | ha
      · exact ⟨(L ++ (realComponents rd).reverse).reverse, n, by simp,
          by simp [realComponents]⟩
      · exact ih' a ha

theorem createDirAll_below {p : List Component} {n : Name} {cp : List Name} (hp : p ≠ [])
    (hcp : fs.locate true p = .ok cp) (hcpget : fs.get cp ≠ none) (hin : rd <+: cp) :
    fs.ChangesBelow rd (stateOf (Fs.createDirAll (p ++ [.normal n]) fs)) := by
  have hl : fs.LandsBelow rd (p ++ [.normal n]) := landsBelow_of_parent hp hcp hin
  obtain ⟨c, rcs, hrev⟩ := List.exists_cons_of_ne_nil (List.reverse_ne_nil_iff.2 hp)
  have hpath : (c :: rcs).reverse = p := by rw [← hrev, List.reverse_reverse]
  obtain ⟨rp, hloc, hk⟩ := locate_false_of_true hcp (by simpa [kindAt] using hcpget)
  have hparent := createDirAll_go_of_exists (hpath ▸ hloc) hk
  simp only [Fs.createDirAll, List.reverse_append, List.reverse_cons, List.reverse_nil,
    List.nil_append, List.singleton_append, Fs.createDirAll.go, List.reverse_reverse]
  split
  · next fs' hm => exact hl.mkdir hm
  · next hm =>
    simp only [reduceCtorEq, if_false]
    rw [hrev]
    split
    · next fs₁ hrun =>
      rw [hrun] at hparent
      simp only [stateOf] at hparent
      subst fs₁
      rw [hm]
      split
      · next heq => cases heq
      · split <;> exact .refl rd fs
    · next e fs₁ hrun =>
      rw [hrun] at hparent
      simp only [stateOf] at hparent
      subst fs₁
      exact .refl rd fs
  · split <;> exact .refl rd fs

theorem createAncestors_below (as : List (List Component))
    (has : ∀ a ∈ as, ∃ p n, a = p ++ [.normal n] ∧ p ≠ []) (hrd : fs.kindAt rd = some .dir) :
    fs.ChangesBelow rd (stateOf (Tar.createAncestors (realComponents rd) as fs)) := by
  induction as generalizing fs with
  | nil => exact .refl rd fs
  | cons a as ih =>
    obtain ⟨p, n, rfl, hp⟩ := has a (List.mem_cons_self _ _)
    simp only [Tar.createAncestors, parent_append_normal]
    refine changesBelow_bind (by rw [stateOf_discard, stateOf_query]; exact .refl rd fs)
      fun _ fs₁ hv _ => ?_
    obtain ⟨hfs, ct, hct⟩ := discard_query_ok hv
    subst fs₁
    obtain ⟨-, cp, hcp, hcpget, hin⟩ := validateInsideDst_ok hrd hct
    exact changesBelow_bind (createDirAll_below hp hcp hcpget hin) fun _ fs₂ _ hb =>
      ih (fun a ha => has a (List.mem_cons_of_mem _ ha)) (hb.kindAt_rd.trans hrd)

theorem ensureDirCreated_below (names : List Name) (hrd : fs.kindAt rd = some .dir) :
    fs.ChangesBelow rd (stateOf (Tar.ensureDirCreated (realComponents rd)
      (realComponents rd ++ names.map .normal) fs)) := by
  refine createAncestors_below _ (fun a ha => ?_) hrd
  rw [List.mem_reverse, List.reverse_append] at ha
  exact missingAncestors_below hrd _ (by simp) a ha

end Ancestors

/-! ### One entry -/

section Entry

variable {rd : List Name} {fs : Fs} {p : List Component} {n : Name}

theorem unpackDir_below {t : List Component} (hl : fs.LandsBelow rd t) :
    fs.ChangesBelow rd (stateOf (Tar.unpackDir t fs)) := by
  unfold Tar.unpackDir
  split
  · next fs' hm => exact hl.mkdir hm
  · split <;> exact .refl rd fs
  · exact .refl rd fs

theorem unpackFile_below (hp : p ≠ []) (hl : fs.LandsBelow rd (p ++ [.normal n])) (e : TarEntry) :
    fs.ChangesBelow rd (stateOf (Tar.unpackFile (p ++ [.normal n]) e fs)) := by
  unfold Tar.unpackFile
  dsimp only
  split
  · next fs' _ h => exact hl.createNew h
  · split
    · next fs' hrm =>
      refine (hl.removeFile hrm).trans ?_
      split
      · next fs'' _ h => exact (hl.of_removeFile hp hrm).createNew h
      · exact .refl rd fs'
    · split
      · next fs'' _ h => exact hl.createNew h
      · exact .refl rd fs
    · exact .refl rd fs
  · exact .refl rd fs

theorem unpackSymlink_below (hp : p ≠ []) (hl : fs.LandsBelow rd (p ++ [.normal n]))
    (src : List Char) :
    fs.ChangesBelow rd (stateOf (Tar.unpackSymlink src (p ++ [.normal n]) fs)) := by
  unfold Tar.unpackSymlink
  split
  · next fs' h => exact hl.symlink h
  · split
    · next fs' hrm =>
      refine (hl.removeFile hrm).trans ?_
      split
      · next fs'' h => exact (hl.of_removeFile hp hrm).symlink h
      · exact .refl rd fs'
    · exact .refl rd fs
  · exact .refl rd fs

theorem stateOf_call_map {α : Type} {g : Fs → Except Error Fs} {a : α} :
    stateOf (Fs.call (fun fs => (·, a) <$> g fs) fs) = match g fs with
      | .ok fs' => fs'
      | .error _ => fs := by
  cases hg : g fs <;> simp [Fs.call, hg, Functor.map, Except.map, stateOf]

theorem unpackEntry_below (hp : p ≠ []) (hl : fs.LandsBelow rd (p ++ [.normal n])) (ct : List Name)
    (e : TarEntry) : fs.ChangesBelow rd (stateOf (Tar.unpackEntry ct (p ++ [.normal n]) e fs)) := by
  unfold Tar.unpackEntry
  cases e.kind with
  | directory => exact unpackDir_below hl
  | hardLink =>
    refine changesBelow_query_bind fun src _ => ?_
    refine changesBelow_bind (by rw [stateOf_discard, stateOf_query]; exact .refl rd fs)
      fun _ fs₁ hv _ => ?_
    obtain ⟨hfs, -⟩ := discard_query_ok hv
    subst fs₁
    rw [stateOf_call_map]
    split
    · next fs' h => exact hl.hardLink h
    · exact .refl rd fs
  | symlink => exact changesBelow_query_bind fun src _ => unpackSymlink_below hp hl src
  | extension => exact .refl rd fs
  | regular | other =>
    dsimp only
    split
    · exact unpackDir_below hl
    · exact unpackFile_below hp hl e

theorem unpackIn_below (hrd : fs.kindAt rd = some .dir) (e : TarEntry) :
    fs.ChangesBelow rd (stateOf (Tar.unpackIn (realComponents rd) e fs)) := by
  unfold Tar.unpackIn
  dsimp only
  split
  · exact .refl rd fs
  · split
    · exact .refl rd fs
    · next hnames =>
      refine changesBelow_bind (ensureDirCreated_below _ hrd) fun _ fs₁ _ hens => ?_
      refine changesBelow_query_bind fun ct hct => ?_
      obtain ⟨-, cp, hcp, -, hin⟩ := validateInsideDst_ok (hens.kindAt_rd.trans hrd) hct
      have hp :
          realComponents rd ++ (normalNames (components e.path)).dropLast.map .normal ≠ [] := by
        simp [realComponents]
      have hfile : realComponents rd ++ (normalNames (components e.path)).map .normal =
          realComponents rd ++ (normalNames (components e.path)).dropLast.map .normal ++
            [.normal ((normalNames (components e.path)).getLast hnames)] := by
        conv_lhs => rw [← List.dropLast_append_getLast hnames]
        simp
      rw [hfile]
      exact changesBelow_bind (unpackEntry_below hp (landsBelow_of_parent hp hcp hin) ct e)
        fun _ fs₃ _ _ => .refl rd fs₃

end Entry

/-! ### The archive -/

section Archive

variable {rd : List Name}

theorem stateOf_map {ε α β : Type} (f : α → β) (x : EStateM ε Fs α) (fs : Fs) :
    stateOf ((f <$> x) fs) = stateOf (x fs) := by
  simp only [Functor.map, EStateM.map]
  cases x fs <;> rfl

theorem unpackFiles_below (es : List TarEntry) {fs : Fs} (hrd : fs.kindAt rd = some .dir) :
    fs.ChangesBelow rd (stateOf (Tar.unpackFiles (realComponents rd) es fs)) := by
  induction es generalizing fs with
  | nil => exact .refl rd fs
  | cons e es ih =>
    unfold Tar.unpackFiles
    split
    · rw [stateOf_map]
      exact ih hrd
    · exact changesBelow_bind (by rw [stateOf_discard]; exact unpackIn_below hrd e)
        fun _ _ _ hb => ih (hb.kindAt_rd.trans hrd)

end Archive

/-! ### `decompress_file` on a tar name -/

section Decompress

variable (df : Deflate) (tf : TarFormat) {fs : Fs}

theorem sysPath_of_isTarName {O : List Char} (h : isTarName O = true) :
    sysPath O = components O := by
  simp only [isTarName, endsWith, Bool.or_eq_true, List.isSuffixOf_iff_suffix] at h
  rcases h with ⟨t, rfl⟩ | ⟨t, rfl⟩ <;> exact sysPath_append_of_getLast rfl (by decide) (by decide)

theorem decompressFile_tar_run {input output : List Char} {rpIn : List Name} {nd : Node}
    {data : Bytes} {m : Metadata} (hstat : fs.stat (sysPath input) = .ok (rpIn, nd))
    (hread : fs.readAt rpIn = .ok (data, m)) (htar : isTarName input = true) :
    decompressFile df tf input output fs =
      (Fs.createDirAll (components output) >>= fun _ =>
        Tar.unpack tf (gzipRead df data) (components output)) fs := by
  unfold decompressFile
  rw [query_bind_of_ok hstat]
  dsimp only
  simp only [bind, EStateM.bind, Fs.query, hread, htar, if_true, Except.bind]

end Decompress

end LithiumTools
