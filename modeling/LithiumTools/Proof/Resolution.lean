import LithiumTools.Resolve

/-!
# What resolution keeps

A walk from a directory ends in one; a successful walk survives growth of the tree; a path with
one more name resolves to that name in the directory the shorter path leads to.
-/

namespace LithiumTools

def Walk.FromDir (fs : Fs) : Walk → Prop
  | .done rp => fs.kindAt rp.dropLast = some .dir
  | .follow base _ => fs.kindAt base = some .dir
  | .fail _ => True

namespace Fs

variable {fs fs' : Fs} {fl : Bool}

theorem walk_fromDir {cur : List Name} {cs : List Component} (hcur : fs.kindAt cur = some .dir) :
    (fs.walk fl cur cs).FromDir fs := by
  induction cur, cs using walk.induct fs fl with
  | case1 cur => exact fs.kindAt_dropLast (by simp [hcur])
  | case2 _ cs ih => exact ih rfl
  | case3 cur cs ih => exact ih hcur
  | case4 cur cs ih => exact ih (fs.kindAt_dropLast (by simp [hcur]))
  | case5 cur n cs h ih => simpa [walk, h] using ih h
  | case6 cur n cs h => simp [walk, h, Walk.FromDir]
  | case7 cur n t ht h hfl =>
    obtain ⟨c, t, rfl⟩ := List.exists_cons_of_ne_nil ht
    simpa [walk, h, hfl, Walk.FromDir] using hcur
  | case8 cur n t ht h hfl =>
    obtain ⟨c, t, rfl⟩ := List.exists_cons_of_ne_nil ht
    simpa [walk, h, hfl, Walk.FromDir] using hcur
  | case9 cur n t _ _ ht h =>
    obtain ⟨c, t, rfl⟩ := List.exists_cons_of_ne_nil ht
    simpa [walk, h, Walk.FromDir] using hcur
  | case10 cur n h => simpa [walk, h, Walk.FromDir] using hcur
  | case11 cur n _ _ h => simp [walk, h, Walk.FromDir]
  | case12 cur n h => simpa [walk, h, Walk.FromDir] using hcur
  | case13 cur n _ _ h => simp [walk, h, Walk.FromDir]

theorem resolve_dropLast {links : Nat} {cur rp : List Name} {cs : List Component}
    (hcur : fs.kindAt cur = some .dir) (h : fs.resolve fl links cur cs = .ok rp) :
    fs.kindAt rp.dropLast = some .dir := by
  induction links, cur, cs using resolve.induct fs fl with
  | case1 links cur cs rp' hw =>
    have : (fs.walk fl cur cs).FromDir fs := walk_fromDir hcur
    rw [resolve, hw] at h
    rw [hw] at this
    cases h
    exact this
  | case2 links cur cs e hw => simp [resolve, hw] at h
  | case3 cur cs base rest hw => simp [resolve, hw] at h
  | case4 cur cs base rest hw k ih =>
    have hbase : (fs.walk fl cur cs).FromDir fs := walk_fromDir hcur
    rw [hw] at hbase
    rw [resolve, hw] at h
    exact ih hbase h

theorem locate_dropLast {p : List Component} {rp : List Name} (h : fs.locate fl p = .ok rp) :
    fs.kindAt rp.dropLast = some .dir := by
  unfold locate at h
  split at h
  · cases h
  · exact resolve_dropLast fs.cwd_dir h

/-! ### A growing tree -/

/-- `fs'` keeps the working directory and every node of `fs` with its type, and has new nodes only
where `fs` has nothing, directories and files only. -/
structure Grows (fs fs' : Fs) : Prop where
  cwd_eq : fs'.cwd = fs.cwd
  kindAt_eq : ∀ q, fs'.kindAt q = fs.kindAt q ∨
    (fs.kindAt q = none ∧ (fs'.kindAt q = some .dir ∨ fs'.kindAt q = some .file))

theorem Grows.refl (fs : Fs) : fs.Grows fs :=
  ⟨rfl, fun _ => .inl rfl⟩

theorem Grows.trans {fs'' : Fs} (h₁ : fs.Grows fs') (h₂ : fs'.Grows fs'') : fs.Grows fs'' := by
  refine ⟨h₂.cwd_eq.trans h₁.cwd_eq, fun q => ?_⟩
  rcases h₂.kindAt_eq q with h | ⟨hnone, hnew⟩
  · rw [h]
    exact h₁.kindAt_eq q
  · rcases h₁.kindAt_eq q with h | ⟨hold, -⟩
    · exact .inr ⟨h ▸ hnone, hnew⟩
    · rw [hnone] at *
      simp_all

theorem walk_of_grows (hg : fs.Grows fs') {cur : List Name} {cs : List Component} {w : Walk}
    (h : fs.walk fl cur cs = w) (hw : ∀ e, w ≠ .fail e) : fs'.walk fl cur cs = w := by
  subst h
  induction cur, cs using walk.induct fs fl with
  | case1 cur => rfl
  | case2 _ cs ih => exact ih hw
  | case3 cur cs ih => exact ih hw
  | case4 cur cs ih => exact ih hw
  | case5 cur n cs h ih =>
    have h' : fs'.kindAt (cur ++ [n]) = some .dir := by
      rcases hg.kindAt_eq (cur ++ [n]) with h'' | ⟨h'', -⟩ <;> simp_all
    simp only [walk, h, h'] at hw ⊢
    exact ih hw
  | case6 cur n cs h => simp [walk, h] at hw
  | case7 cur n t ht h hfl | case8 cur n t ht h hfl | case9 cur n t _ _ ht h =>
    have h' : fs'.kindAt (cur ++ [n]) = some (.symlink t) := by
      rcases hg.kindAt_eq (cur ++ [n]) with h'' | ⟨h'', -⟩ <;> simp_all
    obtain ⟨c, t, rfl⟩ := List.exists_cons_of_ne_nil ht
    simp [walk, h, h']
  | case10 cur n h =>
    have h' : fs'.kindAt (cur ++ [n]) = some .file := by
      rcases hg.kindAt_eq (cur ++ [n]) with h'' | ⟨h'', -⟩ <;> simp_all
    simp [walk, h, h']
  | case11 cur n _ _ h => simp [walk, h] at hw
  | case12 cur n h =>
    simp only [walk, h]
    rcases hg.kindAt_eq (cur ++ [n]) with h' | ⟨-, h' | h'⟩ <;> simp [walk, h, h']
  | case13 cur n _ _ h => simp [walk, h] at hw

theorem resolve_of_grows (hg : fs.Grows fs') {links : Nat} {cur rp : List Name}
    {cs : List Component} (h : fs.resolve fl links cur cs = .ok rp) :
    fs'.resolve fl links cur cs = .ok rp := by
  induction links, cur, cs using resolve.induct fs fl with
  | case1 links cur cs rp' hw =>
    rw [resolve, hw] at h
    rw [resolve, walk_of_grows hg hw (by simp)]
    exact h
  | case2 links cur cs e hw => simp [resolve, hw] at h
  | case3 cur cs base rest hw => simp [resolve, hw] at h
  | case4 cur cs base rest hw k ih =>
    rw [resolve, hw] at h
    rw [resolve, walk_of_grows hg hw (by simp)]
    exact ih h

theorem locate_of_grows (hg : fs.Grows fs') {p : List Component} {rp : List Name}
    (h : fs.locate fl p = .ok rp) : fs'.locate fl p = .ok rp := by
  by_cases hp : p = []
  · simp [locate, hp] at h
  · simp only [locate, hp, if_false, hg.cwd_eq] at h ⊢
    exact resolve_of_grows hg h

/-! ### One more name -/

theorem walk_append_normal {cur : List Name} (cs : List Component) (n : Name)
    (hcur : fs.kindAt cur = some .dir) :
    match fs.walk false cur (cs ++ [.normal n]) with
    | .done rd => ∃ cp, fs.walk true cur cs = .done cp ∧ fs.kindAt cp = some .dir ∧ rd = cp ++ [n]
    | .follow b r => ∃ r', fs.walk true cur cs = .follow b r' ∧ r = r' ++ [.normal n]
    | .fail _ => True := by
  induction cur, cs using walk.induct fs true with
  | case1 cur =>
    have hdone : ∀ k, fs.kindAt (cur ++ [n]) = k → k ≠ some (.symlink []) →
        fs.walk false cur [.normal n] = .done (cur ++ [n]) := by
      intro k hk hne
      rcases k with _ | _ | _ | ⟨_ | ⟨c, t⟩⟩
      · simp [walk, hk]
      · simp [walk, hk]
      · simp [walk, hk]
      · exact absurd rfl hne
      · simp [walk, hk]
    by_cases hl : fs.kindAt (cur ++ [n]) = some (.symlink [])
    · simp [walk, hl]
    · rw [List.nil_append, hdone _ rfl hl]
      exact ⟨cur, rfl, hcur, rfl⟩
  | case2 _ cs ih => simpa [walk] using ih rfl
  | case3 cur cs ih => simpa [walk] using ih hcur
  | case4 cur cs ih => simpa [walk] using ih (fs.kindAt_dropLast (by simp [hcur]))
  | case5 cur m cs h ih => simpa [walk, h] using ih h
  | case6 cur m cs h => simp [walk, h]
  | case7 cur m t ht h _ =>
    obtain ⟨c, t, rfl⟩ := List.exists_cons_of_ne_nil ht
    simp [walk, h]
  | case8 _ _ _ _ _ hfl => exact absurd rfl hfl
  | case9 cur m t _ _ ht h =>
    obtain ⟨c, t, rfl⟩ := List.exists_cons_of_ne_nil ht
    simp [walk, h]
  | case10 cur m h => simp [walk, h]
  | case11 cur m _ _ h => simp [walk, h]
  | case12 cur m h => simp [walk, h]
  | case13 cur m _ _ h => simp [walk, h]

theorem resolve_append_normal {links : Nat} {cur rd : List Name} {cs : List Component} {n : Name}
    (hcur : fs.kindAt cur = some .dir)
    (h : fs.resolve false links cur (cs ++ [.normal n]) = .ok rd) :
    ∃ cp, fs.resolve true links cur cs = .ok cp ∧ fs.kindAt cp = some .dir ∧ rd = cp ++ [n] := by
  have hw := walk_append_normal cs n hcur
  rw [resolve] at h
  split at hw
  · next rd' hrd =>
    obtain ⟨cp, hcp, hdir, rfl⟩ := hw
    rw [hrd] at h
    cases h
    exact ⟨cp, by rw [resolve, hcp], hdir, rfl⟩
  · next b r hbr =>
    obtain ⟨r', hr', rfl⟩ := hw
    rw [hbr] at h
    cases links with
    | zero => cases h
    | succ k =>
      have hb : fs.kindAt b = some .dir := by
        have : (fs.walk true cur cs).FromDir fs := walk_fromDir hcur
        rwa [hr'] at this
      obtain ⟨cp, hcp, hdir, rfl⟩ := resolve_append_normal hb h
      exact ⟨cp, by rw [resolve, hr']; exact hcp, hdir, rfl⟩
  · next e he => simp [he] at h

theorem locate_append_normal {p : List Component} {rd : List Name} {n : Name} (hp : p ≠ [])
    (h : fs.locate false (p ++ [.normal n]) = .ok rd) :
    ∃ cp, fs.locate true p = .ok cp ∧ fs.kindAt cp = some .dir ∧ rd = cp ++ [n] := by
  rw [locate, if_neg (by simp)] at h
  rw [locate, if_neg hp]
  exact resolve_append_normal fs.cwd_dir h

/-! ### The last link -/

theorem walk_false_cases (fs : Fs) (cur : List Name) (cs : List Component) :
    fs.walk false cur cs = fs.walk true cur cs ∨
      ∃ b n t, fs.walk true cur cs = .follow b (components t) ∧
        fs.walk false cur cs = .done (b ++ [n]) ∧ fs.kindAt (b ++ [n]) = some (.symlink t) := by
  induction cur, cs using walk.induct fs true with
  | case1 cur => exact .inl rfl
  | case2 _ cs ih => exact ih
  | case3 cur cs ih => exact ih
  | case4 cur cs ih => exact ih
  | case5 cur n cs h ih => simpa only [walk, h] using ih
  | case6 cur n cs h => exact .inl (by simp [walk, h])
  | case7 cur n t ht h _ =>
    obtain ⟨c, t, rfl⟩ := List.exists_cons_of_ne_nil ht
    exact .inr ⟨cur, n, c :: t, by simp [walk, h], by simp [walk, h], h⟩
  | case8 _ _ _ _ _ hfl => exact absurd rfl hfl
  | case9 cur n t _ _ ht h =>
    obtain ⟨c, t, rfl⟩ := List.exists_cons_of_ne_nil ht
    exact .inl (by simp [walk, h])
  | case10 cur n h => exact .inl (by simp [walk, h])
  | case11 cur n _ _ h => exact .inl (by simp [walk, h])
  | case12 cur n h => exact .inl (by simp [walk, h])
  | case13 cur n _ _ h => exact .inl (by simp [walk, h])

theorem resolve_false_of_true {links : Nat} {cur rp : List Name} {cs : List Component}
    (h : fs.resolve true links cur cs = .ok rp) (hk : fs.kindAt rp ≠ none) :
    ∃ rp', fs.resolve false links cur cs = .ok rp' ∧ fs.kindAt rp' ≠ none := by
  induction links, cur, cs using resolve.induct fs true with
  | case1 links cur cs rp' hw =>
    rw [resolve, hw] at h
    cases h
    rcases walk_false_cases fs cur cs with heq | ⟨b, n, t, hfollow, -, -⟩
    · exact ⟨_, by rw [resolve, heq, hw], hk⟩
    · rw [hw] at hfollow
      cases hfollow
  | case2 links cur cs e hw => simp [resolve, hw] at h
  | case3 cur cs base rest hw => simp [resolve, hw] at h
  | case4 cur cs base rest hw k ih =>
    rw [resolve, hw] at h
    rcases walk_false_cases fs cur cs with heq | ⟨b, n, t, -, hdone, hlink⟩
    · obtain ⟨rp', h', hk'⟩ := ih h
      exact ⟨rp', by rw [resolve, heq, hw]; exact h', hk'⟩
    · exact ⟨b ++ [n], by rw [resolve, hdone], by simp [hlink]⟩

theorem locate_false_of_true {p : List Component} {rp : List Name}
    (h : fs.locate true p = .ok rp) (hk : fs.kindAt rp ≠ none) :
    ∃ rp', fs.locate false p = .ok rp' ∧ fs.kindAt rp' ≠ none := by
  by_cases hp : p = []
  · simp [locate, hp] at h
  · simp only [locate, hp, if_false] at h ⊢
    exact resolve_false_of_true h hk

/-! ### A tree with more nodes -/

/-- `fs'` keeps the working directory and every node of `fs` with its type; where `fs` has
nothing, `fs'` may have anything. -/
structure Extends (fs fs' : Fs) : Prop where
  cwd_eq : fs'.cwd = fs.cwd
  kindAt_eq : ∀ q, fs.kindAt q ≠ none → fs'.kindAt q = fs.kindAt q

theorem walk_of_extends (he : fs.Extends fs') {cur : List Name} {cs : List Component} {w : Walk}
    (h : fs.walk fl cur cs = w) (hw : ∀ e, w ≠ .fail e)
    (hdone : ∀ rp, w = .done rp → fs.kindAt rp ≠ none) : fs'.walk fl cur cs = w := by
  subst h
  induction cur, cs using walk.induct fs fl with
  | case1 cur => rfl
  | case2 _ cs ih => exact ih hw hdone
  | case3 cur cs ih => exact ih hw hdone
  | case4 cur cs ih => exact ih hw hdone
  | case5 cur n cs h ih =>
    have h' : fs'.kindAt (cur ++ [n]) = some .dir := by
      rw [he.kindAt_eq (cur ++ [n]) (by simp [h]), h]
    simp only [walk, h, h'] at hw hdone ⊢
    exact ih hw hdone
  | case6 cur n cs h => simp [walk, h] at hw
  | case7 cur n t ht h hfl | case8 cur n t ht h hfl | case9 cur n t _ _ ht h =>
    obtain ⟨c, t, rfl⟩ := List.exists_cons_of_ne_nil ht
    simp [walk, h, he.kindAt_eq (cur ++ [n]) (by simp [h])]
  | case10 cur n h => simp [walk, h, he.kindAt_eq (cur ++ [n]) (by simp [h])]
  | case11 cur n _ _ h => simp [walk, h] at hw
  | case12 cur n h => simp [walk, h] at hdone
  | case13 cur n _ _ h => simp [walk, h] at hw

theorem resolve_of_extends (he : fs.Extends fs') {links : Nat} {cur rp : List Name}
    {cs : List Component} (h : fs.resolve fl links cur cs = .ok rp) (hk : fs.kindAt rp ≠ none) :
    fs'.resolve fl links cur cs = .ok rp := by
  induction links, cur, cs using resolve.induct fs fl with
  | case1 links cur cs rp' hw =>
    rw [resolve, hw] at h
    cases h
    rw [resolve, walk_of_extends he hw (by simp) (by simpa using hk)]
  | case2 links cur cs e hw => simp [resolve, hw] at h
  | case3 cur cs base rest hw => simp [resolve, hw] at h
  | case4 cur cs base rest hw k ih =>
    rw [resolve, hw] at h
    rw [resolve, walk_of_extends he hw (by simp) (by simp)]
    exact ih h

theorem locate_of_extends (he : fs.Extends fs') {p : List Component} {rp : List Name}
    (h : fs.locate fl p = .ok rp) (hk : fs.kindAt rp ≠ none) : fs'.locate fl p = .ok rp := by
  by_cases hp : p = []
  · simp [locate, hp] at h
  · simp only [locate, hp, if_false, he.cwd_eq] at h ⊢
    exact resolve_of_extends he h hk

/-! ### Real paths -/

theorem walk_map_normal_of_kind (cur ns : List Name) {k : Kind} (h : fs.kindAt (cur ++ ns) = some k)
    (hk : ∀ t, k ≠ .symlink t) : fs.walk fl cur (ns.map .normal) = .done (cur ++ ns) := by
  induction ns generalizing cur with
  | nil => simp [walk]
  | cons n ns ih =>
    by_cases hns : ns = []
    · subst hns
      cases k with
      | file => simp [walk, by simpa using h]
      | dir => simp [walk, by simpa using h]
      | symlink t => exact absurd rfl (hk t)
    · have hq : fs.kindAt (cur ++ n :: ns) ≠ none := by simp [h]
      have hn : fs.kindAt (cur ++ [n]) = some .dir :=
        fs.kindAt_above hq ⟨ns, by simp⟩ fun heq => hns (by simpa using heq)
      simp only [List.map_cons, walk, hn]
      simpa using ih (cur ++ [n]) (by simpa using h)

theorem walk_map_normal (cur ns : List Name) (h : fs.kindAt (cur ++ ns) = some .dir) :
    fs.walk fl cur (ns.map .normal) = .done (cur ++ ns) :=
  walk_map_normal_of_kind cur ns h fun _ => nofun

theorem locate_realComponents {r : List Name} (h : fs.kindAt r = some .dir) :
    fs.locate fl (realComponents r) = .ok r := by
  simp [locate, realComponents, resolve, walk, walk_map_normal [] r (by simpa using h)]

theorem walk_map_normal_of_none (cur ns : List Name) (hcur : fs.kindAt cur = some .dir)
    (hmid : ∀ r, r <+: ns → r ≠ ns → fs.kindAt (cur ++ r) = some .dir ∨ fs.kindAt (cur ++ r) = none)
    (hlast : fs.kindAt (cur ++ ns) = none) :
    fs.walk fl cur (ns.map .normal) = .done (cur ++ ns) ∨
      ∃ e, fs.walk fl cur (ns.map .normal) = .fail e := by
  induction ns generalizing cur with
  | nil => simp_all
  | cons n ns ih =>
    by_cases hns : ns = []
    · subst hns
      exact .inl (by simp [walk, by simpa using hlast])
    · have hne : [n] ≠ n :: ns := by simpa using Ne.symm hns
      rcases hmid [n] ((List.prefix_cons_inj n).2 List.nil_prefix) hne with h | h
      · have hmid' : ∀ r, r <+: ns → r ≠ ns →
            fs.kindAt (cur ++ [n] ++ r) = some .dir ∨ fs.kindAt (cur ++ [n] ++ r) = none := by
          intro r hr hner
          simpa using hmid (n :: r) ((List.prefix_cons_inj n).2 hr) (by simpa using hner)
        have hrest := ih (cur ++ [n]) (by simpa using h) hmid' (by simpa using hlast)
        simpa [walk, show fs.kindAt (cur ++ [n]) = some .dir by simpa using h] using hrest
      · obtain ⟨m, ms, rfl⟩ := List.exists_cons_of_ne_nil hns
        exact .inr ⟨.notFound, by simp [walk, show fs.kindAt (cur ++ [n]) = none by simpa using h]⟩

theorem lstat_realComponents_of_kind {r : List Name} {k : Kind} (hr : fs.kindAt r = some k)
    (hk : ∀ t, k ≠ .symlink t) : ∃ nd, fs.lstat (realComponents r) = .ok (r, nd) := by
  obtain ⟨nd, hnd⟩ : ∃ nd, fs.get r = some nd := by
    cases hg : fs.get r <;> simp_all [kindAt]
  refine ⟨nd, ?_⟩
  simp [lstat, locate, realComponents, resolve, walk,
    walk_map_normal_of_kind [] r (by simpa using hr) hk,
    hnd, bind, Except.bind, pure, Except.pure]

theorem lstat_realComponents_of_none {r : List Name}
    (hpre : ∀ r', r' <+: r → r' ≠ r → fs.kindAt r' = some .dir ∨ fs.kindAt r' = none)
    (hr : fs.kindAt r = none) : ∃ e, fs.lstat (realComponents r) = .error e := by
  have hget : fs.get r = none := by simpa [kindAt] using hr
  have hw : fs.walk false [] (r.map .normal) = .done r ∨
      ∃ e, fs.walk false [] (r.map .normal) = .fail e :=
    by simpa using
      walk_map_normal_of_none [] r (kindAt_nil fs) (by simpa using hpre) (by simpa using hr)
  rcases hw with h | ⟨e, h⟩
  · exact ⟨.notFound, by simp [lstat, locate, realComponents, resolve, walk, h, hget, bind,
      Except.bind, throw, throwThe, MonadExceptOf.throw, Except.error]⟩
  · exact ⟨e, by simp [lstat, locate, realComponents, resolve, walk, h, bind, Except.bind]⟩

/-! ### Paths below a directory -/

theorem walk_append (cur : List Name) (cs rest : List Component) (hrest : rest ≠ []) :
    (∀ cp, fs.walk true cur cs = .done cp → fs.kindAt cp = some .dir →
      fs.walk fl cur (cs ++ rest) = fs.walk fl cp rest) ∧
    (∀ b r, fs.walk true cur cs = .follow b r →
      fs.walk fl cur (cs ++ rest) = .follow b (r ++ rest)) := by
  obtain ⟨c, rest, rfl⟩ := List.exists_cons_of_ne_nil hrest
  induction cur, cs using walk.induct fs true with
  | case1 cur => exact ⟨by simp [walk], by simp [walk]⟩
  | case2 _ cs ih => simpa [walk] using ih
  | case3 cur cs ih => simpa [walk] using ih
  | case4 cur cs ih => simpa [walk] using ih
  | case5 cur n cs h ih => simpa [walk, h] using ih
  | case6 cur n cs h => simp [walk, h]
  | case7 cur n t ht h _ =>
    obtain ⟨c, t, rfl⟩ := List.exists_cons_of_ne_nil ht
    simp [walk, h]
  | case8 _ _ _ _ _ hfl => exact absurd rfl hfl
  | case9 cur n t _ _ ht h =>
    obtain ⟨c, t, rfl⟩ := List.exists_cons_of_ne_nil ht
    simp [walk, h]
  | case10 cur n h => simp [walk, h]
  | case11 cur n _ _ h => simp [walk, h]
  | case12 cur n h => simp [walk, h]
  | case13 cur n _ _ h => simp [walk, h]

theorem resolve_append {links : Nat} {cur cp : List Name} {cs rest : List Component}
    (hrest : rest ≠ []) (h : fs.resolve true links cur cs = .ok cp)
    (hcp : fs.kindAt cp = some .dir) :
    ∃ k, fs.resolve fl links cur (cs ++ rest) = fs.resolve fl k cp rest := by
  induction links, cur, cs using resolve.induct fs true with
  | case1 links cur cs rp hw =>
    rw [resolve, hw] at h
    cases h
    exact ⟨links, by rw [resolve, (walk_append cur cs rest hrest).1 _ hw hcp, ← resolve]⟩
  | case2 links cur cs e hw => simp [resolve, hw] at h
  | case3 cur cs base r hw => simp [resolve, hw] at h
  | case4 cur cs base r hw k ih =>
    rw [resolve, hw] at h
    rw [resolve, (walk_append cur cs rest hrest).2 _ _ hw]
    exact ih h

theorem locate_append {p rest : List Component} {cp : List Name} (hrest : rest ≠ [])
    (h : fs.locate true p = .ok cp) (hcp : fs.kindAt cp = some .dir) :
    ∃ k, fs.locate fl (p ++ rest) = fs.resolve fl k cp rest := by
  by_cases hp : p = []
  · simp [locate, hp] at h
  · simp only [locate, hp, if_false, List.append_eq_nil, false_and] at h ⊢
    exact resolve_append hrest h hcp

theorem walk_map_normal_snoc_none (cur ns : List Name) (n : Name)
    (hdir : fs.kindAt (cur ++ ns) = some .dir) (hn : fs.kindAt (cur ++ ns ++ [n]) = none) :
    fs.walk fl cur ((ns ++ [n]).map .normal) = .done (cur ++ ns ++ [n]) := by
  rw [List.map_append, (walk_append cur _ _ (by simp)).1 _ (walk_map_normal cur ns hdir) hdir]
  simp [walk, show fs.kindAt (cur ++ (ns ++ [n])) = none by simpa using hn]

theorem locate_realComponents_snoc {p : List Name} {n : Name} (hdir : fs.kindAt p = some .dir)
    (hn : fs.kindAt (p ++ [n]) = none) :
    fs.locate fl (realComponents (p ++ [n])) = .ok (p ++ [n]) := by
  have hw : fs.walk fl [] ((p ++ [n]).map .normal) = .done (p ++ [n]) := by
    simpa using walk_map_normal_snoc_none [] p n (by simpa using hdir) (by simpa using hn)
  simp only [locate, realComponents, reduceCtorEq, if_false, resolve, walk, hw]

end Fs

end LithiumTools
