import Mathlib.Data.Nat.Digits
import LithiumTools.Proof.Batch
import LithiumTools.Proof.RoundTrip

/-!
# Base64 text decoded into image files

`decode_base64_to_image`, the `batch-decode` loop and `decode-from-file`: each output is created
only once its text has decoded to an image.
-/

namespace LithiumTools

open Fs

/-! ### Output names -/

theorem foldl_toDigitsCore (fuel n : Nat) (ds : List Char) (hn : n < fuel) :
    (Nat.toDigitsCore 10 fuel n ds).foldl (fun a c => a * 10 + (c.toNat - 48)) 0 =
      ds.foldl (fun a c => a * 10 + (c.toNat - 48)) n := by
  have hdigit : ∀ k, k < 10 → (Nat.digitChar k).toNat - 48 = k := by decide
  induction fuel generalizing n ds with
  | zero => omega
  | succ fuel ih =>
    have hmod := hdigit (n % 10) (Nat.mod_lt _ (by decide))
    simp only [Nat.toDigitsCore]
    split
    · simp only [List.foldl_cons, Nat.zero_mul, Nat.zero_add, hmod]
      rw [Nat.mod_eq_of_lt (by omega)]
    · rw [ih (n / 10) _ (by omega), List.foldl_cons, hmod, Nat.div_add_mod' n 10]

theorem toDigits_inj {i j : Nat} (h : Nat.toDigits 10 i = Nat.toDigits 10 j) : i = j := by
  have := congrArg (List.foldl (fun a c => a * 10 + (c.toNat - 48)) 0) h
  simpa [Nat.toDigits, foldl_toDigitsCore _ _ _ (Nat.lt_succ_self _)] using this

theorem mem_toDigitsCore {fuel n : Nat} {ds : List Char} {c : Char}
    (h : c ∈ Nat.toDigitsCore 10 fuel n ds) : c ∈ ds ∨ ∃ k < 10, c = Nat.digitChar k := by
  induction fuel generalizing n ds with
  | zero => exact .inl h
  | succ fuel ih =>
    simp only [Nat.toDigitsCore] at h
    have h' : c ∈ Nat.digitChar (n % 10) :: ds ∨ ∃ k < 10, c = Nat.digitChar k := by
      split at h
      · exact .inl h
      · exact ih h
    rcases h' with h | h
    · rcases List.mem_cons.1 h with rfl | h
      · exact .inr ⟨n % 10, Nat.mod_lt _ (by decide), rfl⟩
      · exact .inl h
    · exact .inr h

theorem toDigits_valid {i : Nat} {c : Char} (h : c ∈ Nat.toDigits 10 i) :
    c ≠ '/' ∧ c ≠ '\x00' := by
  rcases mem_toDigitsCore h with h | ⟨k, hk, rfl⟩
  · simp at h
  · exact (by decide : ∀ k < 10, Nat.digitChar k ≠ '/' ∧ Nat.digitChar k ≠ '\x00') k hk

theorem imageName_valid (i : Nat) :
    Name.Valid ("image_".toList ++ Nat.toDigits 10 i ++ ".png".toList) := by
  have hpre : "image_".toList = ['i', 'm', 'a', 'g', 'e', '_'] := rfl
  have hsuf : ".png".toList = ['.', 'p', 'n', 'g'] := rfl
  rw [hpre, hsuf]
  refine ⟨by simp, ?_, ?_, by simp, by simp⟩ <;> simp only [List.mem_append, not_or]
  · exact ⟨⟨by decide, fun h => (toDigits_valid h).1 rfl⟩, by decide⟩
  · exact ⟨⟨by decide, fun h => (toDigits_valid h).2 rfl⟩, by decide⟩

def imageName (i : Nat) : Name :=
  ⟨"image_".toList ++ Nat.toDigits 10 i ++ ".png".toList, imageName_valid i⟩

theorem batchOutputPath_eq (outputDir : List Char) (i : Nat) :
    batchOutputPath outputDir i = outputDir ++ '/' :: (imageName i).chars := by
  simp only [batchOutputPath, imageName, List.append_assoc]
  rfl

theorem imageName_inj {i j : Nat} (h : imageName i = imageName j) : i = j := by
  simp only [imageName, Name.mk.injEq, List.append_cancel_left_eq,
    List.append_cancel_right_eq] at h
  exact toDigits_inj h

theorem imageName_prefix_iff {rd : List Name} {i j : Nat} :
    rd ++ [imageName i] <+: rd ++ [imageName j] ↔ i = j := by
  constructor
  · intro h
    have := (List.prefix_append_right_inj rd).1 h
    exact imageName_inj (List.singleton_inj.1 (this.eq_of_length rfl))
  · rintro rfl
    exact List.prefix_refl _

theorem sysPath_batchOutputPath (outputDir : List Char) (i : Nat) :
    sysPath (batchOutputPath outputDir i) = components (batchOutputPath outputDir i) :=
  sysPath_append_of_getLast (t := ".png".toList) rfl (by decide) (by decide)

theorem components_batchOutputPath {outputDir : List Char} (hne : outputDir ≠ []) (i : Nat) :
    components (batchOutputPath outputDir i) = components outputDir ++ [.normal (imageName i)] := by
  rw [batchOutputPath_eq, components_append_name hne]

theorem components_batchOutputPath_nil (i : Nat) :
    components (batchOutputPath [] i) = realComponents [] ++ [.normal (imageName i)] := by
  rw [batchOutputPath_eq, List.nil_append]
  simp [components, splitOn_chars, Component.ofPart_chars, realComponents]

theorem components_pushName (dir : List Char) (n : Name) :
    components (pushName dir n.chars) = components dir ++ [.normal n] := by
  by_cases h0 : dir = []
  · subst h0
    simpa [pushName, joinNames, List.intercalate] using components_joinNames [n]
  by_cases hl : dir.getLast? = some '/'
  · have hdir : dir = dir.dropLast ++ ['/'] := by
      rw [← List.dropLast_append_getLast h0, List.getLast?_eq_getLast _ h0] at *
      simp_all
    rw [pushName, if_pos (.inr hl), hdir, List.append_assoc, List.singleton_append]
    have hempty : Component.ofPart [] = none := by simp [Component.ofPart]
    by_cases h1 : dir.dropLast = []
    · rw [h1]
      simp [components, splitOn_chars, hempty]
    · rw [components_append_name h1, components_append_slash h1]
      simp [hempty]
  · rw [pushName, if_neg (by simp [h0, hl]), List.append_assoc, List.singleton_append,
      components_append_name h0]

theorem sysPath_pushName (dir : List Char) {name : List Char} {c : Char}
    (hc : name.getLast? = some c) (hslash : c ≠ '/') (hdot : c ≠ '.') :
    sysPath (pushName dir name) = components (pushName dir name) := by
  unfold pushName
  split_ifs <;> exact sysPath_append_of_getLast hc hslash hdot

/-! ### A file in a directory -/

theorem createTrunc_append_name {fs : Fs} {p : List Component} {rd : List Name} {n : Name}
    (hloc : fs.locate true p = .ok rd) (hdir : fs.kindAt rd = some .dir)
    (hfree : fs.get (rd ++ [n]) = none ∨ ∃ d m, fs.get (rd ++ [n]) = some (.file d m)) :
    ∃ fs₁ m, fs.createTrunc (p ++ [.normal n]) = .ok (fs₁, rd ++ [n]) ∧
      fs.Updates fs₁ (rd ++ [n]) (some (.file [] m)) := by
  have hkind : fs.kindAt (rd ++ [n]) = none ∨ fs.kindAt (rd ++ [n]) = some .file := by
    rcases hfree with h | ⟨d, m, h⟩ <;> simp [kindAt, h]
  obtain ⟨k, hk⟩ : ∃ k, fs.locate true (p ++ [.normal n]) = fs.resolve true k rd [.normal n] :=
    locate_append (by simp) hloc hdir
  have hloc' : fs.locate true (p ++ [.normal n]) = .ok (rd ++ [n]) := by
    rw [hk, resolve]
    rcases hkind with h | h <;> simp [walk, h]
  obtain ⟨fs₁, hcreate⟩ := createTrunc_of_locate hloc' hfree
  obtain ⟨-, -, m, -, hu, -⟩ := createTrunc_ok hcreate
  exact ⟨fs₁, m, hcreate, hu⟩

theorem get_of_shapeAt_eq {fs fs' : Fs} {q : List Name} {d : Bytes} {m : Metadata}
    (hq : fs'.shapeAt q = fs.shapeAt q) (h : fs.get q = some (.file d m)) :
    fs'.get q = some (.file d m) := by
  simp only [shapeAt, h, Option.map_some'] at hq
  cases h' : fs'.get q with
  | none => simp [h'] at hq
  | some nd => cases nd <;> simp_all [Node.shape]

/-! ### One text decoded -/

section Decode

variable {Image : Type} (lib : ImageLib Image) {urlSafe : Bool} {fs : Fs}

/-- A Base64 text that decodes, with the alphabet chosen, to bytes the image library reads as an
image, which it writes as the PNG `png`. -/
def DecodesTo (urlSafe : Bool) (text : List Char) (png : Bytes) : Prop :=
  ∃ bytes img, (Alphabet.ofUrlSafe urlSafe).decode (trim text) = .ok bytes ∧
    lib.decodeGuessed bytes = some img ∧ lib.writeTo img .png = some png

theorem decodeBase64ToImage_of_decodesTo {text out : List Char} {png : Bytes} {fs₁ : Fs}
    {rp : List Name} (h : DecodesTo lib urlSafe text png)
    (hout : fs.createTrunc (sysPath out) = .ok (fs₁, rp)) :
    decodeBase64ToImage lib text out urlSafe fs = .ok () (fs₁.appendAt rp png) := by
  obtain ⟨bytes, img, hdec, himg, hpng⟩ := h
  simp [decodeBase64ToImage, bind, EStateM.bind, Fs.query, Fs.call, Except.mapError, hdec,
    liftImage, himg, hout, hpng, modify, modifyGet, MonadStateOf.modifyGet, EStateM.modifyGet]

theorem decodeBase64ToImage_of_not_image (fs : Fs) {text : List Char} (out : List Char)
    (hbad : ∀ bytes, (Alphabet.ofUrlSafe urlSafe).decode (trim text) = .ok bytes →
      lib.decodeGuessed bytes = none) :
    ∃ e, decodeBase64ToImage lib text out urlSafe fs = .error e fs ∧
      (e = .image ∨ ∃ de, e = .base64 de) := by
  cases hdec : (Alphabet.ofUrlSafe urlSafe).decode (trim text) with
  | error de =>
    exact ⟨.base64 de, by simp [decodeBase64ToImage, bind, EStateM.bind, Fs.query,
      Except.mapError, hdec], .inr ⟨de, rfl⟩⟩
  | ok bytes =>
    exact ⟨.image, by simp [decodeBase64ToImage, bind, EStateM.bind, Fs.query,
      Except.mapError, hdec, liftImage, hbad bytes hdec], .inl rfl⟩

end Decode

/-! ### The batch loop -/

/-- What a batch wrote from line `i` on: the PNG `pngs[k]` as the file `image_{i+k}.png` in the
directory `rd`, and nothing else changed. -/
structure Fs.WroteImages (rd : List Name) (i : Nat) (pngs : List Bytes) (fs fs' : Fs) : Prop where
  cwd_eq : fs'.cwd = fs.cwd
  get_image : ∀ k (hk : k < pngs.length),
    ∃ m, fs'.get (rd ++ [imageName (i + k)]) = some (.file pngs[k] m)
  shapeAt_eq : ∀ q, (∀ k < pngs.length, ¬ rd ++ [imageName (i + k)] <+: q) →
    fs'.shapeAt q = fs.shapeAt q

theorem Fs.WroteImages.cons {rd : List Name} {i : Nat} {png : Bytes} {pngs : List Bytes}
    {fs fs₁ fs' : Fs} {m : Metadata}
    (hu : fs.Updates fs₁ (rd ++ [imageName i]) (some (.file png m)))
    (hw : fs₁.WroteImages rd (i + 1) pngs fs') : fs.WroteImages rd i (png :: pngs) fs' := by
  have hapart : ∀ k, ¬ rd ++ [imageName (i + 1 + k)] <+: rd ++ [imageName i] := fun k h => by
    have := imageName_prefix_iff.1 h
    omega
  refine ⟨hw.cwd_eq.trans hu.cwd_eq, fun k hk => ?_, fun q hq => ?_⟩
  · cases k with
    | zero =>
      exact ⟨m, get_of_shapeAt_eq (hw.shapeAt_eq _ fun k _ => hapart k) (by simpa using hu.get_eq)⟩
    | succ k =>
      obtain ⟨m', hm'⟩ := hw.get_image k (by simpa using hk)
      exact ⟨m', by simpa [Nat.add_assoc, Nat.add_comm 1 k] using hm'⟩
  · rw [hw.shapeAt_eq q fun k hk => by
        simpa [Nat.add_assoc, Nat.add_comm 1 k] using hq (k + 1) (by simpa using hk),
      hu.shapeAt_eq q (by simpa using hq 0 (by simp))]

section Batch

variable {Image : Type} (lib : ImageLib Image) {urlSafe : Bool} {outputDir : List Char}
  {rd : List Name}

theorem decodeLines_append {p : List Component}
    (hcomp : ∀ i, sysPath (batchOutputPath outputDir i) = p ++ [.normal (imageName i)])
    {pre : List (List Char)} {pngs : List Bytes}
    (hpre : List.Forall₂ (DecodesTo lib urlSafe) pre pngs) :
    ∀ {i : Nat} {fs : Fs}, fs.locate true p = .ok rd →
      fs.kindAt rd = some .dir →
      (∀ k < pre.length, fs.get (rd ++ [imageName (i + k)]) = none ∨
        ∃ d m, fs.get (rd ++ [imageName (i + k)]) = some (.file d m)) →
      ∃ fs', fs.WroteImages rd i pngs fs' ∧ ∀ rest,
        decodeLines lib outputDir urlSafe i (pre ++ rest) fs =
          decodeLines lib outputDir urlSafe (i + pre.length) rest fs' := by
  induction hpre with
  | nil =>
    intro i fs _ _ _
    exact ⟨fs, ⟨rfl, fun k hk => absurd hk (by simp), fun _ _ => rfl⟩, fun rest => by simp⟩
  | @cons line png pre pngs hline _ ih =>
    intro i fs hloc hdir hfree
    obtain ⟨fs₁, m, hcreate, hu₁⟩ := createTrunc_append_name hloc hdir
      (by simpa using hfree 0 (by simp))
    have hu₂ := hu₁.trans (by simpa using appendAt_updates hu₁.get_eq png)
    have hg := (grows_of_createTrunc hcreate).trans (grows_appendAt fs₁ (rd ++ [imageName i]) png)
    have hstep : decodeBase64ToImage lib line (batchOutputPath outputDir i) urlSafe fs =
        .ok () (fs₁.appendAt (rd ++ [imageName i]) png) :=
      decodeBase64ToImage_of_decodesTo lib hline
        (by rw [hcomp]; exact hcreate)
    generalize fs₁.appendAt (rd ++ [imageName i]) png = fs₂ at hu₂ hg hstep
    have hrd : ¬ rd ++ [imageName i] <+: rd := fun h => absurd h.length_le (by simp)
    have hfree₂ : ∀ k < pre.length, fs₂.get (rd ++ [imageName (i + 1 + k)]) = none ∨
        ∃ d m, fs₂.get (rd ++ [imageName (i + 1 + k)]) = some (.file d m) := by
      intro k hk
      have h := hfree (k + 1) (by simpa using hk)
      rw [show i + (k + 1) = i + 1 + k by omega] at h
      exact free_of_updates_file hu₂ rfl ⟨png, _, rfl⟩ h
    obtain ⟨fs', hw, hrun⟩ := ih (locate_of_grows hg hloc) (by rw [hu₂.kindAt_eq hrd, hdir]) hfree₂
    refine ⟨fs', hw.cons hu₂, fun rest => ?_⟩
    simp only [List.cons_append, decodeLines, bind, EStateM.bind, hstep, List.append_eq, hrun,
      List.length_cons, show i + (pre.length + 1) = i + 1 + pre.length by omega]

variable {fs : Fs} {inputFile content : List Char} {es : List (Name × Node)} {pngs : List Bytes}

/-- **Every line of a batch becomes its image** `image_{k}.png`, and nothing else changes. -/
theorem batchDecode_writes_images (hne : outputDir ≠ [])
    (hread : readToString fs inputFile = .ok content)
    (hdir : fs.stat (components outputDir) = .ok (rd, .dir es))
    (hlines : List.Forall₂ (DecodesTo lib urlSafe) (lines content) pngs)
    (hfree : ∀ k < pngs.length, fs.get (rd ++ [imageName k]) = none ∨
      ∃ d m, fs.get (rd ++ [imageName k]) = some (.file d m)) :
    ∃ fs', batchDecode lib inputFile outputDir urlSafe fs = .ok () fs' ∧
      fs.WroteImages rd 0 pngs fs' := by
  obtain ⟨hloc, hget⟩ := get_of_stat hdir
  obtain ⟨fs', hw, hrun⟩ := decodeLines_append lib
    (fun i => (sysPath_batchOutputPath _ i).trans (components_batchOutputPath hne i)) hlines
    (i := 0) hloc
    (by simp [kindAt, hget]) fun k hk => by simpa using hfree k (hlines.length_eq ▸ hk)
  refine ⟨fs', ?_, hw⟩
  rw [batchDecode, query_bind_of_ok (by rw [hread]; rfl), ← List.append_nil (lines content), hrun]
  rfl

/-- **A batch stops at its first line that is no image:** the images before it are written, and
nothing is created for it or after it. -/
theorem batchDecode_stops_at_failing_line {k : Nat} (hne : outputDir ≠ [])
    (hread : readToString fs inputFile = .ok content)
    (hdir : fs.stat (components outputDir) = .ok (rd, .dir es))
    (hk : k < (lines content).length)
    (hbefore : List.Forall₂ (DecodesTo lib urlSafe) ((lines content).take k) pngs)
    (hbad : ∀ bytes, (Alphabet.ofUrlSafe urlSafe).decode (trim (lines content)[k]) = .ok bytes →
      lib.decodeGuessed bytes = none)
    (hfree : ∀ j < k, fs.get (rd ++ [imageName j]) = none ∨
      ∃ d m, fs.get (rd ++ [imageName j]) = some (.file d m)) :
    ∃ e fs', batchDecode lib inputFile outputDir urlSafe fs = .error e fs' ∧
      (e = .image ∨ ∃ de, e = .base64 de) ∧ fs.WroteImages rd 0 pngs fs' := by
  obtain ⟨hloc, hget⟩ := get_of_stat hdir
  obtain ⟨fs', hw, hrun⟩ := decodeLines_append lib
    (fun i => (sysPath_batchOutputPath _ i).trans (components_batchOutputPath hne i)) hbefore
    (i := 0) hloc
    (by simp [kindAt, hget]) fun j hj => by
      rw [List.length_take] at hj
      simpa using hfree j (by omega)
  obtain ⟨e, hfail, he⟩ := decodeBase64ToImage_of_not_image lib fs'
    (batchOutputPath outputDir (0 + ((lines content).take k).length)) hbad
  refine ⟨e, fs', ?_, he, hw⟩
  rw [batchDecode, query_bind_of_ok (by rw [hread]; rfl),
    ← List.take_append_drop k (lines content), List.drop_eq_getElem_cons hk, hrun, decodeLines]
  exact bind_of_error hfail

end Batch

def linesFs : Fs where
  root := [(⟨['i', 'n'], by decide⟩, .file (utf8Encode "AQI=\n".toList) .created),
    (⟨['b', 'a', 'd'], by decide⟩, .file (utf8Encode "AQI=\n!\n".toList) .created),
    (⟨['o'], by decide⟩, .dir [])]
  cwd := []
  now := 0
  distinct := rfl
  cwd_dir := rfl

theorem decodesTo_passThrough : DecodesTo ImageLib.passThrough false "AQI=".toList [1, 2] :=
  ⟨[1, 2], [1, 2], rfl, rfl, rfl⟩

theorem batchDecode_writes_images_linesFs :
    "/o".toList ≠ [] ∧ readToString linesFs "/in".toList = .ok "AQI=\n".toList ∧
    linesFs.stat (components "/o".toList) = .ok ([⟨['o'], by decide⟩], .dir []) ∧
    List.Forall₂ (DecodesTo ImageLib.passThrough false) (lines "AQI=\n".toList) [[1, 2]] ∧
    (∀ k < ([[1, 2]] : List Bytes).length,
      linesFs.get ([⟨['o'], by decide⟩] ++ [imageName k]) = none ∨
        ∃ d m, linesFs.get ([⟨['o'], by decide⟩] ++ [imageName k]) = some (.file d m)) ∧
    ∃ fs', batchDecode ImageLib.passThrough "/in".toList "/o".toList false linesFs = .ok () fs' ∧
      linesFs.WroteImages [⟨['o'], by decide⟩] 0 [[1, 2]] fs' :=
  have hne : "/o".toList ≠ [] := by decide
  have hread : readToString linesFs "/in".toList = .ok "AQI=\n".toList := rfl
  have hdir : linesFs.stat (components "/o".toList) = .ok ([⟨['o'], by decide⟩], .dir []) := rfl
  have hlines : List.Forall₂ (DecodesTo ImageLib.passThrough false) (lines "AQI=\n".toList)
      [[1, 2]] := .cons decodesTo_passThrough .nil
  have hfree : ∀ k < ([[1, 2]] : List Bytes).length,
      linesFs.get ([⟨['o'], by decide⟩] ++ [imageName k]) = none ∨
        ∃ d m, linesFs.get ([⟨['o'], by decide⟩] ++ [imageName k]) = some (.file d m) :=
    fun k hk => .inl (by obtain rfl := Nat.lt_one_iff.1 hk; rfl)
  ⟨hne, hread, hdir, hlines, hfree,
    batchDecode_writes_images ImageLib.passThrough hne hread hdir hlines hfree⟩

theorem batchDecode_stops_at_failing_line_linesFs :
    "/o".toList ≠ [] ∧ readToString linesFs "/bad".toList = .ok "AQI=\n!\n".toList ∧
    linesFs.stat (components "/o".toList) = .ok ([⟨['o'], by decide⟩], .dir []) ∧
    1 < (lines "AQI=\n!\n".toList).length ∧
    List.Forall₂ (DecodesTo ImageLib.passThrough false) ((lines "AQI=\n!\n".toList).take 1)
      [[1, 2]] ∧
    (∀ bytes, (Alphabet.ofUrlSafe false).decode (trim "!".toList) = .ok bytes →
      ImageLib.passThrough.decodeGuessed bytes = none) ∧
    (∀ j < 1, linesFs.get ([⟨['o'], by decide⟩] ++ [imageName j]) = none ∨
      ∃ d m, linesFs.get ([⟨['o'], by decide⟩] ++ [imageName j]) = some (.file d m)) ∧
    ∃ e fs', batchDecode ImageLib.passThrough "/bad".toList "/o".toList false linesFs =
        .error e fs' ∧
      (e = .image ∨ ∃ de, e = .base64 de) ∧
      linesFs.WroteImages [⟨['o'], by decide⟩] 0 [[1, 2]] fs' :=
  have hne : "/o".toList ≠ [] := by decide
  have hread : readToString linesFs "/bad".toList = .ok "AQI=\n!\n".toList := rfl
  have hdir : linesFs.stat (components "/o".toList) = .ok ([⟨['o'], by decide⟩], .dir []) := rfl
  have hk : 1 < (lines "AQI=\n!\n".toList).length := by decide
  have hbefore : List.Forall₂ (DecodesTo ImageLib.passThrough false)
      ((lines "AQI=\n!\n".toList).take 1) [[1, 2]] := .cons decodesTo_passThrough .nil
  have hbad : ∀ bytes, (Alphabet.ofUrlSafe false).decode (trim "!".toList) = .ok bytes →
      ImageLib.passThrough.decodeGuessed bytes = none := fun _ h => nomatch h
  have hfree : ∀ j < 1, linesFs.get ([⟨['o'], by decide⟩] ++ [imageName j]) = none ∨
      ∃ d m, linesFs.get ([⟨['o'], by decide⟩] ++ [imageName j]) = some (.file d m) :=
    fun j hj => .inl (by obtain rfl := Nat.lt_one_iff.1 hj; rfl)
  ⟨hne, hread, hdir, hk, hbefore, hbad, hfree,
    batchDecode_stops_at_failing_line ImageLib.passThrough hne hread hdir hk hbefore hbad hfree⟩

/-- **An empty output directory sends a batch to the root:** `format!("{}/image_{}.png", "", i)` is
`/image_{i}.png`, whatever the current directory. -/
theorem batchDecode_empty_dir {Image : Type} (lib : ImageLib Image) {urlSafe : Bool} {fs : Fs}
    {inputFile content : List Char} {pngs : List Bytes}
    (hread : readToString fs inputFile = .ok content)
    (hlines : List.Forall₂ (DecodesTo lib urlSafe) (lines content) pngs)
    (hfree : ∀ k < pngs.length, fs.get [imageName k] = none ∨
      ∃ d m, fs.get [imageName k] = some (.file d m)) :
    ∃ fs', batchDecode lib inputFile [] urlSafe fs = .ok () fs' ∧ fs.WroteImages [] 0 pngs fs' := by
  obtain ⟨fs', hw, hrun⟩ := decodeLines_append lib
    (fun i => (sysPath_batchOutputPath _ i).trans (components_batchOutputPath_nil i)) hlines
    (i := 0)
    (locate_realComponents (kindAt_nil fs)) (kindAt_nil fs)
    fun k hk => by simpa using hfree k (hlines.length_eq ▸ hk)
  refine ⟨fs', ?_, hw⟩
  rw [batchDecode, query_bind_of_ok (by rw [hread]; rfl), ← List.append_nil (lines content), hrun]
  rfl

def linesInOFs : Fs where
  root := linesFs.root
  cwd := [⟨['o'], by decide⟩]
  now := 0
  distinct := linesFs.distinct
  cwd_dir := by rfl

theorem batchDecode_empty_dir_linesInOFs :
    readToString linesInOFs "/in".toList = .ok "AQI=\n".toList ∧
    List.Forall₂ (DecodesTo ImageLib.passThrough false) (lines "AQI=\n".toList) [[1, 2]] ∧
    (∀ k < ([[1, 2]] : List Bytes).length, linesInOFs.get [imageName k] = none ∨
      ∃ d m, linesInOFs.get [imageName k] = some (.file d m)) ∧
    ∃ fs', batchDecode ImageLib.passThrough "/in".toList [] false linesInOFs = .ok () fs' ∧
      linesInOFs.WroteImages [] 0 [[1, 2]] fs' :=
  have hread : readToString linesInOFs "/in".toList = .ok "AQI=\n".toList := rfl
  have hlines : List.Forall₂ (DecodesTo ImageLib.passThrough false) (lines "AQI=\n".toList)
      [[1, 2]] := .cons decodesTo_passThrough .nil
  have hfree : ∀ k < ([[1, 2]] : List Bytes).length, linesInOFs.get [imageName k] = none ∨
      ∃ d m, linesInOFs.get [imageName k] = some (.file d m) :=
    fun k hk => .inl (by obtain rfl := Nat.lt_one_iff.1 hk; rfl)
  ⟨hread, hlines, hfree, batchDecode_empty_dir ImageLib.passThrough hread hlines hfree⟩

/-! ### One image through a file -/

theorem dropWhile_of_forall {p : Char → Bool} {s : List Char} (h : ∀ c ∈ s, p c = false) :
    s.dropWhile p = s := by
  cases s with
  | nil => rfl
  | cons c s => exact List.dropWhile_cons_of_neg (by simp [h c (List.mem_cons_self c s)])

theorem trim_of_forall {s : List Char} (h : ∀ c ∈ s, isWhitespace c = false) : trim s = s := by
  rw [trim, dropWhile_of_forall h, dropWhile_of_forall (by simpa using h), List.reverse_reverse]

theorem trim_encode (urlSafe : Bool) (buffer : Bytes) :
    trim ((Alphabet.ofUrlSafe urlSafe).encode buffer) =
      (Alphabet.ofUrlSafe urlSafe).encode buffer := by
  have hchars : ∀ c ∈ (Alphabet.ofUrlSafe urlSafe).chars, isWhitespace c = false := by
    cases urlSafe <;> decide
  refine trim_of_forall fun c hc => ?_
  rcases (Alphabet.ofUrlSafe urlSafe).mem_encode hc with h | rfl
  · exact hchars c h
  · decide

theorem liftImage_eq_ok {α : Type} {x : Option α} {a : α} : liftImage x = .ok a ↔ x = some a := by
  cases x <;> simp [liftImage]

section Encode

variable {Image : Type} (lib : ImageLib Image) {fs fs₁ : Fs} {imagePath : List Char}
  {format : Option ImageFormat} {quality : Option Nat} {resize : Option (Nat × Nat)}
  {urlSafe : Bool}

theorem encodeImageToBase64_writeTo {enc : List Char}
    (h : encodeImageToBase64 lib fs imagePath format quality resize urlSafe = .ok enc) :
    ∃ img buffer, lib.writeTo img (format.getD (formatOfPath imagePath)) = some buffer ∧
      enc = (Alphabet.ofUrlSafe urlSafe).encode buffer := by
  simp only [encodeImageToBase64, except_bind_eq_ok] at h
  obtain ⟨_, _, _, _, _, _, h⟩ := h
  split at h
  · cases h
  · obtain ⟨_, _, h⟩ := except_bind_eq_ok.mp h
    obtain ⟨buffer, hbuf, h⟩ := except_bind_eq_ok.mp h
    cases h
    exact ⟨_, buffer, liftImage_eq_ok.1 hbuf, rfl⟩

theorem encodeCommand_ok {outputPath : List Char}
    (h : encodeCommand lib imagePath format quality resize urlSafe outputPath fs = .ok () fs₁) :
    ∃ enc rp m, encodeImageToBase64 lib fs imagePath format quality resize urlSafe = .ok enc ∧
      fs.locate true (sysPath outputPath) = .ok rp ∧
      fs.Updates fs₁ rp (some (.file (utf8Encode enc) m)) ∧ fs.Grows fs₁ := by
  obtain ⟨enc, henc, h⟩ := query_bind_ok h
  obtain ⟨fs₂, rp, hcreate, h⟩ := call_bind_ok h
  have hcreate := mapError_eq_ok.mp hcreate
  obtain ⟨hloc, -, m, -, hu, -⟩ := createTrunc_ok hcreate
  simp only [modify, modifyGet, MonadStateOf.modifyGet, EStateM.modifyGet, EStateM.Result.ok.injEq,
    true_and] at h
  subst h
  exact ⟨enc, rp, { m with mtime := fs₂.now }, henc, hloc,
    by simpa using hu.trans (appendAt_updates hu.get_eq _),
    (grows_of_createTrunc hcreate).trans (grows_appendAt _ _ _)⟩

def decodedName : Name :=
  ⟨"decoded_image.png".toList, by decide⟩

/-- **What the `encode` command writes, `decode-from-file` reads back:** the image library gets
exactly the bytes the image was written as. -/
theorem encodeCommand_decodeFromFile {F outputDir : List Char} {rd : List Name}
    {es : List (Name × Node)}
    (henc : encodeCommand lib imagePath format quality resize urlSafe F fs = .ok () fs₁)
    (hdir : fs.stat (components outputDir) = .ok (rd, .dir es))
    (hfree : fs.get (rd ++ [decodedName]) = none ∨
      ∃ d m, fs.get (rd ++ [decodedName]) = some (.file d m)) :
    ∃ img buffer, lib.writeTo img (format.getD (formatOfPath imagePath)) = some buffer ∧
      ∀ img' png, lib.decodeGuessed buffer = some img' → lib.writeTo img' .png = some png →
        ∃ fs₂ m, decodeFromFile lib F outputDir urlSafe fs₁ =
            .ok (pushName outputDir "decoded_image.png".toList) fs₂ ∧
          fs₁.Updates fs₂ (rd ++ [decodedName]) (some (.file png m)) := by
  obtain ⟨enc, rp, m, hcall, hloc, hu, hg⟩ := encodeCommand_ok lib henc
  obtain ⟨img, buffer, hbuf, rfl⟩ := encodeImageToBase64_writeTo lib hcall
  refine ⟨img, buffer, hbuf, fun img' png himg hpng => ?_⟩
  have hread : readToString fs₁ F = .ok ((Alphabet.ofUrlSafe urlSafe).encode buffer) := by
    simp [readToString, stat_of_get (locate_of_grows hg hloc) hu.get_eq, readAt, hu.get_eq,
      utf8Decode_utf8Encode, bind, Except.bind, pure, Except.pure]
  obtain ⟨hlocD, hgetD⟩ := get_of_stat hdir
  have hdirD : fs₁.kindAt rd = some .dir := by
    rcases hg.kindAt_eq rd with h | ⟨h, -⟩ <;> simp_all [kindAt]
  obtain ⟨fs₃, m', hcreate, hu₃⟩ := createTrunc_append_name (locate_of_grows hg hlocD) hdirD
    (free_of_updates_file hu rfl ⟨_, m, rfl⟩ hfree)
  have hdec : DecodesTo lib urlSafe ((Alphabet.ofUrlSafe urlSafe).encode buffer) png :=
    ⟨buffer, img', by rw [trim_encode, Alphabet.decode_encode], himg, hpng⟩
  have hout : sysPath (pushName outputDir "decoded_image.png".toList) =
      components outputDir ++ [.normal decodedName] :=
    (sysPath_pushName outputDir
      (show "decoded_image.png".toList.getLast? = some 'g' from rfl) (by decide) (by decide)).trans
      (components_pushName outputDir decodedName)
  refine ⟨_, { m' with mtime := fs₃.now }, ?_,
    hu₃.trans (by simpa using appendAt_updates hu₃.get_eq png)⟩
  rw [decodeFromFile, query_bind_of_ok (by rw [hread]; rfl)]
  simp only [bind, EStateM.bind,
    decodeBase64ToImage_of_decodesTo lib hdec (by rw [hout]; exact hcreate)]
  rfl

end Encode

def encodedFs : Fs :=
  stateOf (encodeCommand ImageLib.passThrough "/a".toList none none none false "/out".toList
    oneFileFs)

theorem encodeCommand_decodeFromFile_oneFile :
    encodeCommand ImageLib.passThrough "/a".toList none none none false "/out".toList oneFileFs =
      .ok () encodedFs ∧
    oneFileFs.stat (components "/".toList) = .ok ([], .dir oneFileFs.root) ∧
    (oneFileFs.get ([] ++ [decodedName]) = none ∨
      ∃ d m, oneFileFs.get ([] ++ [decodedName]) = some (.file d m)) ∧
    ∃ img buffer, ImageLib.passThrough.writeTo img ((none : Option ImageFormat).getD
        (formatOfPath "/a".toList)) = some buffer ∧
      ∀ img' png, ImageLib.passThrough.decodeGuessed buffer = some img' →
        ImageLib.passThrough.writeTo img' .png = some png →
        ∃ fs₂ m, decodeFromFile ImageLib.passThrough "/out".toList "/".toList false encodedFs =
            .ok (pushName "/".toList "decoded_image.png".toList) fs₂ ∧
          encodedFs.Updates fs₂ ([] ++ [decodedName]) (some (.file png m)) :=
  have henc : encodeCommand ImageLib.passThrough "/a".toList none none none false "/out".toList
      oneFileFs = .ok () encodedFs := rfl
  have hdir : oneFileFs.stat (components "/".toList) = .ok ([], .dir oneFileFs.root) := rfl
  have hfree : oneFileFs.get ([] ++ [decodedName]) = none ∨
      ∃ d m, oneFileFs.get ([] ++ [decodedName]) = some (.file d m) := .inl rfl
  ⟨henc, hdir, hfree, encodeCommand_decodeFromFile ImageLib.passThrough henc hdir hfree⟩

/-! ### The batch encoder -/

section EncodeBatch

variable {Image : Type} (lib : ImageLib Image) {fs : Fs} {format : Option ImageFormat}
  {quality : Option Nat} {resize : Option (Nat × Nat)} {urlSafe : Bool}

/-- **A batch that cannot be encoded writes nothing:** every image is encoded before the output is
opened. -/
theorem encodeMultipleImages_first_failure {ps rest : List (List Char)} {p : List Char}
    {e : ToolError}
    (hok : ∀ q ∈ ps, ∃ enc, encodeImageToBase64 lib fs q format quality resize urlSafe = .ok enc)
    (hp : encodeImageToBase64 lib fs p format quality resize urlSafe = .error e)
    (outputFile : Option (List Char)) :
    encodeMultipleImages lib (ps ++ p :: rest) format quality resize urlSafe outputFile fs =
      .error e fs := by
  have hmap : ((ps ++ p :: rest).mapM fun path => do
      let encoded ← encodeImageToBase64 lib fs path format quality resize urlSafe
      pure (path, encoded)) = .error e := by
    induction ps with
    | nil =>
      rw [List.nil_append, List.mapM_cons]
      simp only [hp, bind, Except.bind]
    | cons q ps ih =>
      obtain ⟨enc, henc⟩ := hok q (List.mem_cons_self q ps)
      rw [List.cons_append, List.mapM_cons, ih fun q hq => hok q (List.mem_cons_of_mem _ hq)]
      simp only [henc, bind, Except.bind, pure, Except.pure]
  rw [encodeMultipleImages, query_bind_of_error hmap]

end EncodeBatch

theorem encodeMultipleImages_first_failure_oneFile :
    (∀ q ∈ ["/a".toList], ∃ enc,
      encodeImageToBase64 ImageLib.passThrough oneFileFs q none none none false = .ok enc) ∧
    encodeImageToBase64 ImageLib.passThrough oneFileFs "/m".toList none none none false =
      .error (.io .notFound) ∧
    encodeMultipleImages ImageLib.passThrough (["/a".toList] ++ "/m".toList :: ["/a".toList])
        none none none false (some "/out".toList) oneFileFs = .error (.io .notFound) oneFileFs :=
  have hok : ∀ q ∈ ["/a".toList], ∃ enc,
      encodeImageToBase64 ImageLib.passThrough oneFileFs q none none none false = .ok enc := by
    simp only [List.mem_singleton, forall_eq]
    exact ⟨_, rfl⟩
  have hp : encodeImageToBase64 ImageLib.passThrough oneFileFs "/m".toList none none none false =
      .error (.io .notFound) := rfl
  ⟨hok, hp, encodeMultipleImages_first_failure ImageLib.passThrough hok hp (some "/out".toList)⟩

end LithiumTools
