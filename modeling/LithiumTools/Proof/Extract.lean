import LithiumTools.Proof.Archive
import LithiumTools.Proof.RoundTrip

/-!
# Unpacking what `compress_dir` archived

Unpacked into an empty directory, the archive leaves exactly its files at their paths and the
directories on the way; with the archiving, the round trip of a directory.
-/

namespace LithiumTools

open Fs

theorem Fs.exists_get_of_kindAt_dir {fs : Fs} {r : List Name} (h : fs.kindAt r = some .dir) :
    ∃ es, fs.get r = some (.dir es) := by
  rw [kindAt] at h
  obtain ⟨nd, hnd, hk⟩ := Option.map_eq_some'.1 h
  cases nd <;> simp_all [Node.kind]

/-! ### The layout of unpacked files -/

/-- What lies below a directory after the files `fl` were unpacked into it: each file at its path,
and a directory at every path leading to one. -/
def unpackedShape : List (List Name × Node) → List Name → Option Node
  | [], r => if r = [] then some (.dir []) else none
  | (q, nd) :: fl, r =>
    if r = q then some nd else if r.isPrefixOf q then some (.dir []) else unpackedShape fl r

section Layout

variable {fl : List (List Name × Node)} {q r : List Name} {nd : Node}

theorem unpackedShape_append (hfresh : ∀ x ∈ fl, ¬ x.1 <+: q ∧ ¬ q <+: x.1) (r : List Name) :
    unpackedShape (fl ++ [(q, nd)]) r =
      if r = q then some nd else if r <+: q then some (.dir []) else unpackedShape fl r := by
  induction fl with
  | nil =>
    simp only [List.nil_append, unpackedShape, List.isPrefixOf_iff_prefix]
  | cons x fl ih =>
    obtain ⟨q', nd'⟩ := x
    have hx := hfresh (q', nd') (List.mem_cons_self _ _)
    rw [List.cons_append, unpackedShape.eq_2, unpackedShape.eq_2,
      ih fun y hy => hfresh y (List.mem_cons_of_mem _ hy)]
    simp only [List.isPrefixOf_iff_prefix]
    by_cases h1 : r = q' <;> by_cases h3 : r = q
    · subst h1 h3; exact absurd (List.prefix_refl _) hx.1
    · subst h1; simp_all
    · subst h3; simp_all
    · by_cases h2 : r <+: q' <;> by_cases h4 : r <+: q <;> simp_all

theorem unpackedShape_eq_none (hr : r ≠ []) (h : ∀ x ∈ fl, ¬ r <+: x.1) :
    unpackedShape fl r = none := by
  induction fl with
  | nil => simp [unpackedShape, hr]
  | cons x fl ih =>
    obtain ⟨q', nd'⟩ := x
    have hx := h (q', nd') (List.mem_cons_self _ _)
    have hne : r ≠ q' := fun heq => hx (heq ▸ List.prefix_refl r)
    simp only [unpackedShape, hne, if_false, List.isPrefixOf_iff_prefix, hx]
    exact ih fun y hy => h y (List.mem_cons_of_mem _ hy)

theorem unpackedShape_eq_some (h : unpackedShape fl r = some nd) : (r, nd) ∈ fl ∨ nd = .dir [] := by
  induction fl with
  | nil =>
    simp only [unpackedShape] at h
    split_ifs at h
    exact .inr (Option.some.inj h).symm
  | cons x fl ih =>
    obtain ⟨q', nd'⟩ := x
    simp only [unpackedShape] at h
    split_ifs at h with h1 h2
    · cases h
      exact .inl (h1 ▸ List.mem_cons_self _ _)
    · exact .inr (Option.some.inj h).symm
    · exact (ih h).imp (List.mem_cons_of_mem _) id

end Layout

/-! ### Paths that lead to others -/

theorem prefix_dropLast_iff {q r : List Name} (hq : q ≠ []) :
    r <+: q.dropLast ↔ r <+: q ∧ r ≠ q := by
  constructor
  · intro h
    refine ⟨h.trans (List.dropLast_prefix q), fun heq => ?_⟩
    have := h.length_le
    rw [heq, List.length_dropLast] at this
    have : 0 < q.length := List.length_pos.2 hq
    omega
  · rintro ⟨h, hne⟩
    refine List.prefix_of_prefix_length_le h (List.dropLast_prefix q) ?_
    have hlt : r.length ≠ q.length := fun heq => hne (h.eq_of_length heq)
    have := h.length_le
    rw [List.length_dropLast]
    omega

theorem prefix_append_cases {rx s r : List Name} (h : r <+: rx ++ s) :
    r <+: rx ∨ ∃ s', s' <+: s ∧ r = rx ++ s' := by
  rcases List.prefix_or_prefix_of_prefix h (List.prefix_append rx s) with h' | ⟨t, rfl⟩
  · exact .inl h'
  · exact .inr ⟨t, (List.prefix_append_right_inj rx).1 h, rfl⟩

/-! ### The directories on the way -/

section Ancestors

variable {S S₁ : Fs} {rx : List Name}

theorem missingAncestors_of_exists {p : List Component} (hp : p ≠ []) {x : List Name × Node}
    (h : S.lstat p = .ok x) : Tar.missingAncestors S p.reverse = [] := by
  obtain ⟨c, rcs, hc⟩ := List.exists_cons_of_ne_nil (List.reverse_ne_nil_iff.2 hp)
  have hp' : (c :: rcs).reverse = p := by rw [← hc, List.reverse_reverse]
  simp only [hc, Tar.missingAncestors, hp', h]

theorem missingAncestors_of_missing {p : List Component} {n : Name} {e : Error}
    (h : S.lstat (p ++ [Component.normal n]) = .error e) :
    Tar.missingAncestors S (p ++ [Component.normal n]).reverse =
      (p ++ [Component.normal n]) :: Tar.missingAncestors S p.reverse := by
  simp [Tar.missingAncestors, h]

theorem createAncestors_append (dst : List Component) (as bs : List (List Component)) :
    Tar.createAncestors dst (as ++ bs) =
      (Tar.createAncestors dst as >>= fun _ => Tar.createAncestors dst bs) := by
  induction as with
  | nil => simp [Tar.createAncestors]
  | cons a as ih =>
    rcases hpar : parent a with _ | par <;>
      simp only [List.cons_append, Tar.createAncestors, hpar, List.append_eq, ih, bind_assoc]

theorem createAncestors_one {p : List Name} {n : Name} (hrx : S₁.kindAt rx = some .dir)
    (hp : S₁.kindAt (rx ++ p) = some .dir) (hn : S₁.kindAt (rx ++ p ++ [n]) = none) :
    ∃ S₂, Tar.createAncestors (realComponents rx) [realComponents (rx ++ p ++ [n])] S₁ = .ok () S₂ ∧
      S₁.Updates S₂ (rx ++ p ++ [n]) (some (.dir [])) := by
  have ha : realComponents (rx ++ p ++ [n]) = realComponents (rx ++ p) ++ [.normal n] := by
    simp [realComponents]
  have hloc : S₁.locate false (realComponents (rx ++ p ++ [n])) = .ok (rx ++ p ++ [n]) :=
    locate_realComponents_snoc hp hn
  obtain ⟨S₂, hmk⟩ := mkdir_of_free hloc hn
  obtain ⟨rp, hrp, -, hu⟩ := mkdir_ok hmk
  rw [hloc, Except.ok.injEq] at hrp
  subst hrp
  have hvalid :
      Tar.validateInsideDst (realComponents rx) (realComponents (rx ++ p)) S₁ = .ok rx := by
    simp [Tar.validateInsideDst, canonicalize_realComponents hrx, canonicalize_realComponents hp,
      bind, Except.bind, pure, Except.pure]
  refine ⟨S₂, ?_, hu⟩
  rw [ha] at hmk ⊢
  simp only [Tar.createAncestors, parent_append_normal, discard_apply, Fs.query, hvalid, bind,
    EStateM.bind, createDirAll_of_mkdir (by simp) hmk, pure, EStateM.pure]

theorem kindAt_append_of_none {r : List Name} (h : S.kindAt r = none) (t : List Name) :
    S.kindAt (r ++ t) = none := by
  by_contra hne
  by_cases ht : t = []
  · subst ht
    simp_all
  · have := S.kindAt_above hne (List.prefix_append r t) (by simpa using Ne.symm ht)
    simp_all

theorem ensureDirCreated_layout (p : List Name) (hrx : S.kindAt rx = some .dir)
    (hmid : ∀ p', p' <+: p → S.kindAt (rx ++ p') = some .dir ∨ S.kindAt (rx ++ p') = none) :
    ∃ S', Tar.ensureDirCreated (realComponents rx) (realComponents (rx ++ p)) S = .ok () S' ∧
      (∀ p', p' <+: p → S'.kindAt (rx ++ p') = some .dir) ∧
      ∀ r, ¬ r <+: p → S'.shapeAt (rx ++ r) = S.shapeAt (rx ++ r) := by
  induction p using List.reverseRecOn with
  | nil =>
    obtain ⟨nd, hls⟩ := lstat_realComponents_of_kind
      (show S.kindAt (rx ++ []) = some .dir by simpa using hrx) fun _ => nofun
    refine ⟨S, ?_, fun p' hp' => ?_, fun _ _ => rfl⟩
    · simp only [Tar.ensureDirCreated, missingAncestors_of_exists (by simp [realComponents]) hls,
        List.reverse_nil, Tar.createAncestors]
      rfl
    · rw [List.prefix_nil.1 hp']
      simpa using hrx
  | append_singleton p n ih =>
    have hlong : ∀ r, r <+: p → ¬ p ++ [n] <+: r := fun r hr h => by
      have := h.length_le.trans hr.length_le
      simp only [List.length_append, List.length_singleton] at this
      omega
    rcases hmid (p ++ [n]) (List.prefix_refl _) with hd | hnone
    · -- the directory is there already: nothing is made
      obtain ⟨nd, hls⟩ := lstat_realComponents_of_kind hd fun _ => nofun
      refine ⟨S, ?_, fun p' hp' => ?_, fun _ _ => rfl⟩
      · simp only [Tar.ensureDirCreated, missingAncestors_of_exists (by simp [realComponents]) hls,
          List.reverse_nil, Tar.createAncestors]
        rfl
      · by_cases heq : p' = p ++ [n]
        · rw [heq]
          exact hd
        · exact S.kindAt_above (by simp [hd]) ((List.prefix_append_right_inj rx).2 hp')
            (by simpa using heq)
    · -- it is missing: the ones above are made first, then this one
      obtain ⟨S₁, hrun₁, hdir₁, hframe₁⟩ :=
        ih fun p' hp' => hmid p' (hp'.trans (List.prefix_append p [n]))
      have hn₁ : S₁.kindAt (rx ++ p ++ [n]) = none := by
        rw [kindAt_eq_map_shapeAt, List.append_assoc, hframe₁ _ (hlong p (List.prefix_refl p)),
          ← kindAt_eq_map_shapeAt, hnone]
      obtain ⟨S₂, hrun₂, hu⟩ :=
        createAncestors_one (by simpa using hdir₁ [] List.nil_prefix)
          (hdir₁ p (List.prefix_refl p)) hn₁
      have ha : realComponents (rx ++ (p ++ [n])) = realComponents (rx ++ p) ++ [.normal n] := by
        simp [realComponents]
      obtain ⟨e, hls⟩ : ∃ e, S.lstat (realComponents (rx ++ p) ++ [.normal n]) = .error e := by
        rw [← ha]
        refine lstat_realComponents_of_none (fun r' hr' hne => ?_) hnone
        rcases prefix_append_cases hr' with h | ⟨s', hs', rfl⟩
        · by_cases hrr : r' = rx
          · exact .inl (hrr ▸ hrx)
          · exact .inl (S.kindAt_above (by simp [hrx]) h hrr)
        · exact hmid s' hs'
      refine ⟨S₂, ?_, fun p' hp' => ?_, fun r hr => ?_⟩
      · have hrun₁' : Tar.createAncestors (realComponents rx)
            (Tar.missingAncestors S (realComponents (rx ++ p)).reverse).reverse S = .ok () S₁ :=
          hrun₁
        show Tar.createAncestors _ (Tar.missingAncestors S _).reverse S = _
        rw [ha, missingAncestors_of_missing hls, List.reverse_cons, createAncestors_append]
        simp only [bind, EStateM.bind, hrun₁']
        simpa [realComponents] using hrun₂
      · by_cases heq : p' = p ++ [n]
        · subst heq
          have hg : S₂.get (rx ++ (p ++ [n])) = some (.dir []) := by simpa using hu.get_eq
          simp [kindAt, hg, Node.kind]
        · have hp : p' <+: p := by
            simpa using (prefix_dropLast_iff (by simp : p ++ [n] ≠ [])).2 ⟨hp', heq⟩
          rw [hu.kindAt_eq fun h => hlong p' hp ((List.prefix_append_right_inj rx).1
            (by simpa using h)), hdir₁ p' hp]
      · by_cases hb : p ++ [n] <+: r
        · obtain ⟨t, rfl⟩ := hb
          have ht : t ≠ [] := by
            rintro rfl
            exact hr (by simp)
          rw [shapeAt_eq_none.2 (by simpa using hu.kindAt_below (by simp [Node.entries]) ht),
            shapeAt_eq_none.2 (by simpa using kindAt_append_of_none hnone t)]
        · rw [hu.shapeAt_eq _ fun h => hb ((List.prefix_append_right_inj rx).1 (by simpa using h)),
            hframe₁ r fun h => hr (h.trans (List.prefix_append p [n]))]

end Ancestors

/-! ### One entry -/

section Entry

variable {S : Fs} {rx : List Name} {fl : List (List Name × Node)}

theorem shapeAt_of_kindAt_dir {r : List Name} (h : S.kindAt r = some .dir) :
    S.shapeAt r = some (.dir []) := by
  obtain ⟨es, hes⟩ := S.exists_get_of_kindAt_dir h
  simp [shapeAt, hes, Node.shape]

theorem unpackIn_file {q : List Name} {e : TarEntry} (hrx : S.kindAt rx = some .dir)
    (hlay : ∀ r, S.shapeAt (rx ++ r) = unpackedShape fl r) (hq : q ≠ [])
    (hfresh : ∀ x ∈ fl, ¬ x.1 <+: q ∧ ¬ q <+: x.1)
    (hpath : e.path = joinNames q) (hkind : e.kind = .regular) :
    ∃ S', Tar.unpackIn (realComponents rx) e S = .ok true S' ∧
      ∀ r, S'.shapeAt (rx ++ r) =
        unpackedShape (fl ++ [(q, .file e.data (Tar.unpackedMeta e))]) r := by
  -- the directories on the way: each a directory already, or nothing
  have hmid : ∀ p', p' <+: q.dropLast →
      S.kindAt (rx ++ p') = some .dir ∨ S.kindAt (rx ++ p') = none := by
    intro p' hp'
    rw [kindAt_eq_map_shapeAt, hlay]
    cases h : unpackedShape fl p' with
    | none => exact .inr rfl
    | some nd =>
      rcases unpackedShape_eq_some h with hmem | rfl
      · exact absurd ((prefix_dropLast_iff hq).1 hp').1 (hfresh _ hmem).1
      · exact .inl rfl
  obtain ⟨S₁, hrun₁, hdir₁, hframe₁⟩ := ensureDirCreated_layout q.dropLast hrx hmid
  have hp₁ : S₁.kindAt (rx ++ q.dropLast) = some .dir := hdir₁ _ (List.prefix_refl _)
  have hvalid : Tar.validateInsideDst (realComponents rx) (realComponents (rx ++ q.dropLast)) S₁ =
      .ok rx := by
    simp [Tar.validateInsideDst,
      canonicalize_realComponents (by simpa using hdir₁ [] List.nil_prefix),
      canonicalize_realComponents hp₁, bind, Except.bind, pure, Except.pure]
  -- the file, where there is nothing yet
  have hq' : q.dropLast ++ [q.getLast hq] = q := List.dropLast_append_getLast hq
  have hnone : S₁.kindAt (rx ++ q.dropLast ++ [q.getLast hq]) = none := by
    rw [List.append_assoc, hq', kindAt_eq_map_shapeAt,
      hframe₁ q fun h => ((prefix_dropLast_iff hq).1 h).2 rfl, hlay,
      unpackedShape_eq_none hq fun x hx => (hfresh x hx).2]
    rfl
  have hloc : S₁.locate false (realComponents (rx ++ q.dropLast ++ [q.getLast hq])) =
      .ok (rx ++ q.dropLast ++ [q.getLast hq]) := locate_realComponents_snoc hp₁ hnone
  obtain ⟨S₂, hnew⟩ : ∃ S₂, S₁.createNew (realComponents (rx ++ q.dropLast ++ [q.getLast hq]))
      (.file e.data (Tar.unpackedMeta e)) rfl = .ok (S₂, rx ++ q.dropLast ++ [q.getLast hq]) :=
    createNew_of_free hloc hnone
  obtain ⟨-, -, hu⟩ := createNew_ok hnew
  rw [List.append_assoc, hq'] at hnew hu
  refine ⟨S₂, ?_, fun r => ?_⟩
  · -- the run: the entry's path is the names, with no `..`
    have hdst : ∀ ns : List Name, realComponents rx ++ ns.map .normal = realComponents (rx ++ ns) :=
      fun ns => by simp [realComponents]
    have hslash : ¬ ((!e.ustar) = true ∧ (joinNames q).getLast? = some '/') :=
      fun h => getLast?_joinNames_ne h.2
    simp only [Tar.unpackIn, hpath, components_joinNames, normalNames_map_normal, hq, if_false,
      List.mem_map, reduceCtorEq, and_false, exists_false, hdst, bind, EStateM.bind, hrun₁,
      Fs.query, hvalid, Tar.unpackEntry, hkind, Bool.and_eq_true, decide_eq_true_eq]
    rw [if_neg hslash]
    simp only [Tar.unpackFile, hnew]
    rfl
  · -- the layout: the file at `q`, directories on the way, the rest as it was
    rw [unpackedShape_append hfresh r]
    by_cases hrq : r = q
    · subst hrq
      simp [shapeAt, hu.get_eq, Node.shape]
    rw [if_neg hrq]
    by_cases hqr : q <+: r
    · obtain ⟨t, rfl⟩ := hqr
      have ht : t ≠ [] := by
        rintro rfl
        simp at hrq
      have hlong : ¬ q ++ t <+: q := fun h => by
        have := h.length_le
        simp only [List.length_append] at this
        exact ht (List.length_eq_zero.1 (by omega))
      rw [if_neg hlong,
        shapeAt_eq_none.2 (by simpa using hu.kindAt_below (by simp [Node.entries]) ht),
        unpackedShape_eq_none (by simp [hq]) fun x hx h =>
          (hfresh x hx).2 ((List.prefix_append q t).trans h)]
    rw [hu.shapeAt_eq _ fun h => hqr ((List.prefix_append_right_inj rx).1 h)]
    by_cases hpre : r <+: q
    · rw [if_pos hpre]
      exact shapeAt_of_kindAt_dir (hdir₁ r ((prefix_dropLast_iff hq).2 ⟨hpre, hrq⟩))
    · rw [if_neg hpre, hframe₁ r fun h => hpre ((prefix_dropLast_iff hq).1 h).1, hlay]

theorem unpackFiles_files {qs : List (List Name)} {es : List TarEntry}
    (hes : List.Forall₂ (fun q e => e.path = joinNames q ∧ e.kind = .regular) qs es) :
    ∀ {S : Fs} {fl : List (List Name × Node)}, S.kindAt rx = some .dir →
      (∀ r, S.shapeAt (rx ++ r) = unpackedShape fl r) →
      (fl.map Prod.fst ++ qs).Pairwise (fun a b => ¬ a <+: b ∧ ¬ b <+: a) → (∀ q ∈ qs, q ≠ []) →
      ∃ S', Tar.unpackFiles (realComponents rx) es S = .ok [] S' ∧
        ∀ r, S'.shapeAt (rx ++ r) =
          unpackedShape (fl ++ qs.zip (es.map fun e => .file e.data (Tar.unpackedMeta e))) r := by
  induction hes with
  | nil => exact fun {S} _ _ hlay _ _ => ⟨S, rfl, by simpa using hlay⟩
  | @cons q e qs es hqe _ ih =>
    intro S fl hrx hlay hpf hne
    have hq : q ≠ [] := hne q (List.mem_cons_self q qs)
    have hfresh : ∀ x ∈ fl, ¬ x.1 <+: q ∧ ¬ q <+: x.1 := fun x hx =>
      List.pairwise_append.1 hpf |>.2.2 x.1 (List.mem_map_of_mem Prod.fst hx) q
        (List.mem_cons_self q qs)
    obtain ⟨S₁, hrun₁, hlay₁⟩ := unpackIn_file hrx hlay hq hfresh hqe.1 hqe.2
    have hrx₁ : S₁.kindAt rx = some .dir := by
      have h := hlay₁ []
      rw [unpackedShape_append hfresh, if_neg (Ne.symm hq), if_pos List.nil_prefix,
        List.append_nil] at h
      simp [kindAt_eq_map_shapeAt, h, Node.kind]
    obtain ⟨S₂, hrun₂, hlay₂⟩ := ih hrx₁ hlay₁ (by simpa using hpf)
      fun q' hq' => hne q' (List.mem_cons_of_mem q hq')
    refine ⟨S₂, ?_, by simpa using hlay₂⟩
    simp only [Tar.unpackFiles, hqe.2, reduceCtorEq, if_false, bind, EStateM.bind, discard_apply,
      hrun₁, hrun₂]

end Entry

/-! ### The archive -/

theorem storable_of_forall₂ {qs : List (List Name)} {es : List TarEntry}
    (hes : List.Forall₂ (fun q e => e.path = joinNames q ∧ e.linkName = none) qs es) :
    ∀ e ∈ es, e.Storable := by
  induction hes with
  | nil => simp
  | @cons q e qs es hqe _ ih =>
    intro e' he'
    rcases List.mem_cons.1 he' with rfl | he'
    · refine ⟨fun h => ?_, by simp [hqe.2]⟩
      rcases mem_joinNames (hqe.1 ▸ h) with h | ⟨n, -, hn⟩
      · exact absurd h (by decide)
      · exact n.valid.2.2.1 hn
    · exact ih e' he'

section Decompress

variable (df : Deflate) (tf : TarFormat) {fs : Fs}

theorem createDirAll_of_dir {p : List Component} {rx : List Name} {es : List (Name × Node)}
    (h : fs.stat p = .ok (rx, .dir es)) : Fs.createDirAll p fs = .ok () fs := by
  obtain ⟨hloc, hget⟩ := get_of_stat h
  obtain ⟨r, hlocf, hk⟩ := locate_false_of_true hloc (by simp [kindAt, hget])
  have hp : p ≠ [] := by
    rintro rfl
    simp [locate] at hloc
  obtain ⟨c, rcs, hrev⟩ := List.exists_cons_of_ne_nil (List.reverse_ne_nil_iff.2 hp)
  have hpath : (c :: rcs).reverse = p := by rw [← hrev, List.reverse_reverse]
  simp only [Fs.createDirAll, hrev, Fs.createDirAll.go, hpath, mkdir_of_exists hlocf hk, isDir, h]
  rfl

end Decompress

/-! ### The round trip of a directory -/

section RoundTrip

variable (df : Deflate) (tf : TarFormat) {fs : Fs}

theorem unpackedShape_of_empty {p : List Component} {rx : List Name}
    (h : fs.stat p = .ok (rx, .dir [])) (r : List Name) :
    fs.shapeAt (rx ++ r) = unpackedShape [] r := by
  have hget := (get_of_stat h).2
  cases r with
  | nil => simp [shapeAt, hget, unpackedShape, Node.shape]
  | cons n r => simp [shapeAt, Fs.get_append, hget, unpackedShape]

end RoundTrip

end LithiumTools
