import LithiumTools.Proof.Resolution

/-!
# What each call does

One lemma per system call: where it resolves its path, which node it puts where, and that every
other path looks the same (`Fs.Updates`).
-/

namespace LithiumTools

theorem Node.get_cons_of_entries_nil {nd : Node} (h : nd.entries = []) (m : Name) (r : List Name) :
    nd.get (m :: r) = none := by
  cases nd with
  | dir es => simp only [entries] at h; simp [h]
  | file d meta => rfl
  | symlink t => rfl

namespace Fs

variable {fs fs' fs'' : Fs} {rp : List Name}

/-- `fs'` is `fs` with `v` at the real path `rp`; every path outside `rp` looks the same. -/
structure Updates (fs fs' : Fs) (rp : List Name) (v : Option Node) : Prop where
  cwd_eq : fs'.cwd = fs.cwd
  get_eq : fs'.get rp = v
  shapeAt_eq : ∀ q, ¬ rp <+: q → fs'.shapeAt q = fs.shapeAt q

theorem Updates.trans {v w : Option Node} (h₁ : fs.Updates fs' rp v) (h₂ : fs'.Updates fs'' rp w) :
    fs.Updates fs'' rp w :=
  ⟨h₂.cwd_eq.trans h₁.cwd_eq, h₂.get_eq,
    fun q hq => (h₂.shapeAt_eq q hq).trans (h₁.shapeAt_eq q hq)⟩

theorem updates_setAt {v : Option Node} hv hrp (hparent : fs.kindAt rp.dropLast = some .dir) :
    fs.Updates (fs.setAt rp v hv hrp) rp v :=
  ⟨rfl, fs.get_setAt_self v hv hrp hparent, fun _ hq => fs.shapeAt_setAt_outside v hv hrp hq⟩

theorem Updates.kindAt_eq {v : Option Node} (h : fs.Updates fs' rp v) {q : List Name}
    (hq : ¬ rp <+: q) : fs'.kindAt q = fs.kindAt q := by
  rw [kindAt_eq_map_shapeAt, kindAt_eq_map_shapeAt, h.shapeAt_eq q hq]

theorem Updates.kindAt_below {v : Option Node} (h : fs.Updates fs' rp v)
    (hv : ∀ nd ∈ v, nd.entries = []) {r : List Name} (hr : r ≠ []) :
    fs'.kindAt (rp ++ r) = none := by
  obtain ⟨m, r, rfl⟩ := List.exists_cons_of_ne_nil hr
  cases v with
  | none => simp [kindAt, get_append, h.get_eq]
  | some nd => simp [kindAt, get_append, h.get_eq, Node.get_cons_of_entries_nil (hv nd rfl)]

theorem kindAt_below_of_not_dir (fs : Fs) (h : fs.kindAt rp ≠ some .dir) {r : List Name}
    (hr : r ≠ []) : fs.kindAt (rp ++ r) = none := by
  by_contra hne
  exact h (fs.kindAt_above hne (List.prefix_append rp r) (by simpa using hr))

theorem Updates.grows {nd : Node} (h : fs.Updates fs' rp (some nd)) (hentries : nd.entries = [])
    (hkind : nd.kind = .dir ∨ nd.kind = .file)
    (hold : fs.kindAt rp = none ∨ (fs.kindAt rp = some .file ∧ nd.kind = .file)) :
    fs.Grows fs' := by
  refine ⟨h.cwd_eq, fun q => ?_⟩
  by_cases hq : rp <+: q
  · obtain ⟨r, rfl⟩ := hq
    by_cases hr : r = []
    · subst hr
      have hnew : fs'.kindAt (rp ++ []) = some nd.kind := by simp [kindAt, h.get_eq]
      rw [hnew]
      rcases hold with hold | ⟨hold, hfile⟩
      · exact .inr ⟨by simpa using hold, by simpa using hkind⟩
      · exact .inl (by simp [hold, hfile])
    · have hnot : fs.kindAt rp ≠ some .dir := by rcases hold with hold | ⟨hold, -⟩ <;> simp [hold]
      rw [h.kindAt_below (by simpa using hentries) hr, fs.kindAt_below_of_not_dir hnot hr]
      exact .inl rfl
  · exact .inl (h.kindAt_eq hq)

/-! ### Steps of a procedure -/

/-- The file system a run ends with, whether it returned or failed. -/
def stateOf {ε α : Type} : EStateM.Result ε Fs α → Fs
  | .ok _ fs => fs
  | .error _ fs => fs


section Steps

variable {ε α β : Type} {g : α → EStateM ε Fs β} {b : β}

theorem query_bind_ok {f : Fs → Except ε α} (h : (Fs.query f >>= g) fs = .ok b fs') :
    ∃ a, f fs = .ok a ∧ g a fs = .ok b fs' := by
  simp only [bind, EStateM.bind, Fs.query] at h
  cases hf : f fs with
  | error e => simp [hf] at h
  | ok a => simp only [hf] at h; exact ⟨a, rfl, h⟩

theorem call_bind_ok {f : Fs → Except ε (Fs × α)} (h : (Fs.call f >>= g) fs = .ok b fs') :
    ∃ fs₁ a, f fs = .ok (fs₁, a) ∧ g a fs₁ = .ok b fs' := by
  simp only [bind, EStateM.bind, Fs.call] at h
  cases hf : f fs with
  | error e => simp [hf] at h
  | ok r => simp only [hf] at h; exact ⟨r.1, r.2, rfl, h⟩

theorem query_bind_of_ok {f : Fs → Except ε α} {a : α} (hf : f fs = .ok a) :
    (Fs.query f >>= g) fs = g a fs := by
  simp [bind, EStateM.bind, Fs.query, hf]

theorem query_bind_of_error {f : Fs → Except ε α} {e : ε} (hf : f fs = .error e) :
    (Fs.query f >>= g) fs = .error e fs := by
  simp [bind, EStateM.bind, Fs.query, hf]

theorem bind_of_error {x : EStateM ε Fs α} {e : ε} (hx : x fs = .error e fs') :
    (x >>= g) fs = .error e fs' := by
  simp [bind, EStateM.bind, hx]

end Steps

/-! ### The calls -/

@[simp] theorem now_setAt {v : Option Node} hv hrp : (fs.setAt rp v hv hrp).now = fs.now := rfl

@[simp] theorem now_appendAt (fs : Fs) (rp : List Name) (chunk : Bytes) :
    (fs.appendAt rp chunk).now = fs.now := by
  unfold appendAt
  split <;> rfl

theorem createTrunc_ok {p : List Component} (h : fs.createTrunc p = .ok (fs', rp)) :
    fs.locate true p = .ok rp ∧ fs'.now = fs.now ∧ ∃ m, m.mtime = fs.now ∧
      fs.Updates fs' rp (some (.file [] m)) ∧
      (fs.get rp = none ∧ m = { Metadata.created with mtime := fs.now } ∨
        ∃ d m₀, fs.get rp = some (.file d m₀) ∧ m = { m₀ with mtime := fs.now }) := by
  simp only [createTrunc, bind, Except.bind] at h
  split at h
  · cases h
  · next rp' hloc =>
    have hparent := locate_dropLast hloc
    split at h
    · next hget =>
      simp only [pure, Except.pure, Except.ok.injEq, Prod.mk.injEq] at h
      obtain ⟨rfl, rfl⟩ := h
      exact ⟨hloc, rfl, _, rfl, updates_setAt _ _ hparent, .inl ⟨hget, rfl⟩⟩
    · next d m hget =>
      simp only [pure, Except.pure, Except.ok.injEq, Prod.mk.injEq] at h
      obtain ⟨rfl, rfl⟩ := h
      exact ⟨hloc, rfl, _, rfl, updates_setAt _ _ hparent, .inr ⟨d, m, hget, rfl⟩⟩
    · cases h

theorem grows_of_createTrunc {p : List Component} (h : fs.createTrunc p = .ok (fs', rp)) :
    fs.Grows fs' := by
  obtain ⟨-, -, m, -, hu, hold⟩ := createTrunc_ok h
  refine hu.grows rfl (.inr rfl) ?_
  rcases hold with ⟨hold, -⟩ | ⟨d, m₀, hold, -⟩
  · exact .inl (by simp [kindAt, hold])
  · exact .inr ⟨by simp [kindAt, hold], rfl⟩

theorem Metadata.stamp_eq {m : Metadata} {t : Nat} (h : m.mtime = t) :
    { m with mtime := t } = m := by
  subst h
  rfl

theorem appendAt_updates {d : Bytes} {m : Metadata} (h : fs.get rp = some (.file d m))
    (chunk : Bytes) :
    fs.Updates (fs.appendAt rp chunk) rp
      (some (.file (d ++ chunk) { m with mtime := fs.now })) := by
  have hparent : fs.kindAt rp.dropLast = some .dir := fs.kindAt_dropLast (by simp [kindAt, h])
  unfold appendAt
  split
  · next d' m' h' =>
    rw [h] at h'
    cases h'
    exact updates_setAt _ _ hparent
  · next hne => exact absurd h (hne d m)

theorem grows_appendAt (fs : Fs) (rp : List Name) (chunk : Bytes) :
    fs.Grows (fs.appendAt rp chunk) := by
  cases h : fs.get rp with
  | none => simp [appendAt, h, Grows.refl]
  | some nd =>
    cases nd with
    | file d m =>
      exact (appendAt_updates h chunk).grows rfl (.inr rfl) (.inr ⟨by simp [kindAt, h], rfl⟩)
    | dir es => simp [appendAt, h, Grows.refl]
    | symlink t => simp [appendAt, h, Grows.refl]

theorem createNew_ok {p : List Component} {nd : Node} {hnd : nd.distinctNames = true}
    (h : fs.createNew p nd hnd = .ok (fs', rp)) :
    fs.locate false p = .ok rp ∧ fs.kindAt rp = none ∧ fs.Updates fs' rp (some nd) := by
  simp only [createNew, bind, Except.bind] at h
  split at h
  · cases h
  · next rp' hloc =>
    split at h
    · next hk =>
      simp only [pure, Except.pure, Except.ok.injEq, Prod.mk.injEq] at h
      obtain ⟨rfl, rfl⟩ := h
      exact ⟨hloc, hk, updates_setAt _ _ (locate_dropLast hloc)⟩
    · cases h

theorem createNew_error {p : List Component} {nd : Node} {hnd : nd.distinctNames = true}
    {rp : List Name} (hloc : fs.locate false p = .ok rp) (hk : fs.kindAt rp ≠ none) :
    fs.createNew p nd hnd = .error .alreadyExists := by
  simp only [createNew, bind, Except.bind, hloc]
  split
  · next h => exact absurd h hk
  · rfl

theorem createNew_map_ok {p : List Component} {nd : Node} {hnd : nd.distinctNames = true}
    (h : (·.1) <$> fs.createNew p nd hnd = .ok fs') :
    ∃ rp, fs.locate false p = .ok rp ∧ fs.kindAt rp = none ∧ fs.Updates fs' rp (some nd) := by
  simp only [Functor.map, Except.map] at h
  split at h
  · cases h
  · next r hr =>
    cases h
    exact ⟨r.2, createNew_ok hr⟩

theorem mkdir_ok {p : List Component} (h : fs.mkdir p = .ok fs') :
    ∃ rp, fs.locate false p = .ok rp ∧ fs.kindAt rp = none ∧ fs.Updates fs' rp (some (.dir [])) :=
  createNew_map_ok h

theorem symlink_ok {t : List Char} {p : List Component} (h : fs.symlink t p = .ok fs') :
    ∃ rp, fs.locate false p = .ok rp ∧ fs.kindAt rp = none ∧
      fs.Updates fs' rp (some (.symlink t)) := by
  unfold symlink at h
  split_ifs at h
  exact createNew_map_ok h

theorem hardLink_ok {src dst : List Component} (h : fs.hardLink src dst = .ok fs') :
    ∃ rp nd, fs.locate false dst = .ok rp ∧ fs.kindAt rp = none ∧ fs.Updates fs' rp (some nd) := by
  simp only [hardLink, bind, Except.bind] at h
  split at h
  · cases h
  · split at h
    · cases h
    · cases h
    all_goals
      obtain ⟨rp, hrp⟩ := createNew_map_ok h
      exact ⟨rp, _, hrp⟩

theorem lstat_ok {p : List Component} {rp : List Name} {nd : Node}
    (h : fs.lstat p = .ok (rp, nd)) : fs.locate false p = .ok rp ∧ fs.get rp = some nd := by
  simp only [lstat, bind, Except.bind] at h
  split at h
  · cases h
  · next rp' hloc =>
    split at h
    · next nd' hget =>
      simp only [pure, Except.pure, Except.ok.injEq, Prod.mk.injEq] at h
      obtain ⟨rfl, rfl⟩ := h
      exact ⟨hloc, hget⟩
    · cases h

theorem mkdir_of_exists {p : List Component} {rp : List Name} (hloc : fs.locate false p = .ok rp)
    (hk : fs.kindAt rp ≠ none) : fs.mkdir p = .error .alreadyExists := by
  simp [mkdir, createNew_error hloc hk, Functor.map, Except.map]

theorem createNew_of_free {p : List Component} {nd : Node} {hnd : nd.distinctNames = true}
    {rp : List Name} (hloc : fs.locate false p = .ok rp) (hk : fs.kindAt rp = none) :
    ∃ fs', fs.createNew p nd hnd = .ok (fs', rp) := by
  simp only [createNew, bind, Except.bind, hloc]
  split
  · exact ⟨_, rfl⟩
  · simp_all

theorem mkdir_of_free {p : List Component} {rp : List Name} (hloc : fs.locate false p = .ok rp)
    (hk : fs.kindAt rp = none) : ∃ fs', fs.mkdir p = .ok fs' := by
  obtain ⟨fs', h⟩ : ∃ fs', fs.createNew p (.dir []) rfl = .ok (fs', rp) := createNew_of_free hloc hk
  exact ⟨fs', by simp [mkdir, h, Functor.map, Except.map]⟩

theorem Updates.extends_of_none (h : fs.Updates fs' rp none) : fs'.Extends fs := by
  refine ⟨h.cwd_eq.symm, fun q hq => ?_⟩
  by_cases hp : rp <+: q
  · obtain ⟨r, rfl⟩ := hp
    by_cases hr : r = []
    · subst hr
      simp [kindAt, h.get_eq] at hq
    · exact absurd (h.kindAt_below (by simp) hr) hq
  · exact (h.kindAt_eq hp).symm

theorem removeFile_ok {p : List Component} (h : fs.removeFile p = .ok fs') :
    ∃ rp, fs.locate false p = .ok rp ∧ fs.kindAt rp ≠ none ∧ fs.kindAt rp ≠ some .dir ∧
      fs.Updates fs' rp none := by
  simp only [removeFile, bind, Except.bind] at h
  split at h
  · cases h
  · next rp' hloc =>
    split at h
    · cases h
    · next k hk =>
      split at h
      · cases h
      · next hne =>
        simp only [pure, Except.pure, Except.ok.injEq] at h
        subst h
        exact ⟨rp', hloc, by simp [hk], by simp [hk, hne], updates_setAt _ _ (locate_dropLast hloc)⟩

end Fs

/-! ### What `stat` returns -/

theorem get_of_stat {fs : Fs} {p : List Component} {rp : List Name} {nd : Node}
    (h : fs.stat p = .ok (rp, nd)) : fs.locate true p = .ok rp ∧ fs.get rp = some nd := by
  simp only [Fs.stat, bind, Except.bind] at h
  split at h
  · cases h
  · next rp' hloc =>
    split at h
    · next nd' hget =>
      simp only [pure, Except.pure, Except.ok.injEq, Prod.mk.injEq] at h
      obtain ⟨rfl, rfl⟩ := h
      exact ⟨hloc, hget⟩
    · cases h

theorem stat_of_get {fs : Fs} {p : List Component} {rp : List Name} {nd : Node}
    (hloc : fs.locate true p = .ok rp) (h : fs.get rp = some nd) : fs.stat p = .ok (rp, nd) := by
  simp [Fs.stat, hloc, h, bind, Except.bind, pure, Except.pure]

theorem stat_of_locate_error {fs : Fs} {p : List Component} {e : Error}
    (hloc : fs.locate true p = .error e) : fs.stat p = .error e := by
  simp [Fs.stat, hloc, bind, Except.bind]

theorem stat_of_get_none {fs : Fs} {p : List Component} {rp : List Name}
    (hloc : fs.locate true p = .ok rp) (h : fs.get rp = none) : fs.stat p = .error .notFound := by
  simp [Fs.stat, hloc, h, bind, Except.bind, throw, throwThe, MonadExceptOf.throw]

end LithiumTools
