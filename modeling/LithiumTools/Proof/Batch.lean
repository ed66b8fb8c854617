import LithiumTools.ImageBase64
import LithiumTools.Proof.Compress

/-!
# A batch written and read back

`encode_multiple_images` writes `path: text` lines, and the colon is in neither alphabet: the
`batch-decode` loop stops at the first line.
-/

namespace LithiumTools

open Fs

/-! ### UTF-8 -/

theorem continuation_ofNat (k : Nat) :
    continuation (UInt8.ofNat (0x80 + k % 0x40)) = some (k % 0x40) := by
  have hk : k % 0x40 < 0x40 := Nat.mod_lt _ (by decide)
  simp [continuation, UInt8.toNat_ofNat_of_lt (by omega : 0x80 + k % 0x40 < 256)]
  omega

theorem Char.toNat_valid (c : Char) :
    c.toNat < 0xD800 ∨ (0xDFFF < c.toNat ∧ c.toNat < 0x110000) := by
  have := c.valid
  simpa [UInt32.isValidChar, Nat.isValidChar, Char.toNat] using this

theorem Char.ofNat_eq_of_toNat {c : Char} {n : Nat} (h : n = c.toNat) : Char.ofNat n = c := by
  rw [h, Char.ofNat_toNat]

theorem utf8Next_utf8Char_append (c : Char) (rest : Bytes) :
    utf8Next (utf8Char c ++ rest) = some (c, rest) := by
  have hc := Char.toNat_valid c
  by_cases h1 : c.toNat < 0x80
  · simp [utf8Char, h1, utf8Next, UInt8.toNat_ofNat_of_lt (by omega : c.toNat < 256)]
  by_cases h2 : c.toNat < 0x800
  · have hb0 := UInt8.toNat_ofNat_of_lt (by omega : 0xC0 + c.toNat / 0x40 < 256)
    simp only [utf8Char, h1, h2, if_false, if_true, List.map_cons, List.map_nil, List.cons_append,
      List.nil_append, utf8Next, hb0, continuation_ofNat]
    rw [if_neg (by omega), if_pos (by omega)]
    simp only [Option.some.injEq, Prod.mk.injEq, and_true]
    exact Char.ofNat_eq_of_toNat (by omega)
  by_cases h3 : c.toNat < 0x10000
  · have hb0 := UInt8.toNat_ofNat_of_lt (by omega : 0xE0 + c.toNat / 0x1000 < 256)
    simp only [utf8Char, h1, h2, h3, if_false, if_true, List.map_cons, List.map_nil,
      List.cons_append, List.nil_append, utf8Next, hb0, continuation_ofNat]
    rw [if_neg (by omega), if_neg (by omega), if_pos (by omega), if_pos (by omega)]
    simp only [Option.some.injEq, Prod.mk.injEq, and_true]
    exact Char.ofNat_eq_of_toNat (by omega)
  · have hb0 := UInt8.toNat_ofNat_of_lt (by omega : 0xF0 + c.toNat / 0x40000 < 256)
    simp only [utf8Char, h1, h2, h3, if_false, List.map_cons, List.map_nil, List.cons_append,
      List.nil_append, utf8Next, hb0, continuation_ofNat]
    rw [if_neg (by omega), if_neg (by omega), if_neg (by omega), if_pos (by omega),
      if_pos (by omega)]
    simp only [Option.some.injEq, Prod.mk.injEq, and_true]
    exact Char.ofNat_eq_of_toNat (by omega)

theorem utf8Char_ne_nil (c : Char) : utf8Char c ≠ [] := by
  unfold utf8Char
  dsimp only
  split_ifs <;> simp

theorem utf8Encode_cons (c : Char) (s : List Char) :
    utf8Encode (c :: s) = utf8Char c ++ utf8Encode s := rfl

theorem utf8DecodeFrom_utf8Encode (s : List Char) (k : Nat) (hk : s.length ≤ k) :
    utf8DecodeFrom k (utf8Encode s) = some s := by
  induction s generalizing k with
  | nil => simp [utf8Encode, utf8DecodeFrom]
  | cons c s ih =>
    obtain ⟨k, rfl⟩ : ∃ j, k = j + 1 := ⟨k - 1, by simp at hk; omega⟩
    obtain ⟨b, bs, hb⟩ := List.exists_cons_of_ne_nil (utf8Char_ne_nil c)
    have hnext := utf8Next_utf8Char_append c (utf8Encode s)
    rw [hb, List.cons_append] at hnext
    rw [utf8Encode_cons, hb, List.cons_append, utf8DecodeFrom, hnext]
    simp [ih k (by simpa using hk)]

theorem length_le_length_utf8Encode (s : List Char) : s.length ≤ (utf8Encode s).length := by
  induction s with
  | nil => simp
  | cons c s ih =>
    have := List.length_pos.mpr (utf8Char_ne_nil c)
    simp only [utf8Encode, List.flatMap_cons, List.length_append, List.length_cons] at ih ⊢
    omega

theorem utf8Decode_utf8Encode (s : List Char) : utf8Decode (utf8Encode s) = some s :=
  utf8DecodeFrom_utf8Encode s _ (length_le_length_utf8Encode s)

/-! ### Lines and trimming -/

theorem linesFrom_append_newline (cur l rest : List Char) (hl : '\n' ∉ l) :
    lines.linesFrom cur (l ++ '\n' :: rest) =
      (if (cur ++ l).getLast? = some '\r' then (cur ++ l).dropLast else cur ++ l) ::
        lines.linesFrom [] rest := by
  induction l generalizing cur with
  | nil => simp [lines.linesFrom]
  | cons c l ih =>
    have hc : c ≠ '\n' := fun h => hl (h ▸ List.mem_cons_self c l)
    simp only [List.cons_append, lines.linesFrom, hc, if_false]
    simpa using ih (cur ++ [c]) (fun h => hl (List.mem_cons_of_mem c h))

theorem mem_dropWhile {p : Char → Bool} {s : List Char} {c : Char} (hc : c ∈ s) (hp : p c = false) :
    c ∈ s.dropWhile p := by
  induction s with
  | nil => simp at hc
  | cons d s ih =>
    rw [List.dropWhile_cons]
    split
    · rcases List.mem_cons.mp hc with rfl | hc
      · simp_all
      · exact ih hc
    · exact hc

theorem mem_trim {s : List Char} {c : Char} (hc : c ∈ s) (hw : isWhitespace c = false) :
    c ∈ trim s := by
  unfold trim
  rw [List.mem_reverse]
  exact mem_dropWhile (List.mem_reverse.mpr (mem_dropWhile hc hw)) hw

/-! ### The Base64 decoder meets a line -/

theorem colon_not_mem (urlSafe : Bool) : ':' ∉ (Alphabet.ofUrlSafe urlSafe).chars := by
  cases urlSafe <;> decide

theorem newline_not_mem (urlSafe : Bool) : '\n' ∉ (Alphabet.ofUrlSafe urlSafe).chars := by
  cases urlSafe <;> decide

theorem decode_trim_of_colon {s : List Char} (urlSafe : Bool) (hs : ':' ∈ s) :
    ∃ e, (Alphabet.ofUrlSafe urlSafe).decode (trim s) = .error e := by
  cases h : (Alphabet.ofUrlSafe urlSafe).decode (trim s) with
  | error e => exact ⟨e, rfl⟩
  | ok bs =>
    exact absurd h (Alphabet.decode_of_not_mem (colon_not_mem urlSafe) (by decide)
      (mem_trim hs (by decide)) bs)

/-! ### The tool -/

theorem mapError_eq_ok {ε ε' α : Type} {x : Except ε α} {f : ε → ε'} {a : α} :
    x.mapError f = .ok a ↔ x = .ok a := by
  cases x <;> simp [Except.mapError]

section Tool

variable {Image : Type} (lib : ImageLib Image)

theorem encodeImageToBase64_ok {fs : Fs} {path : List Char} {format : Option ImageFormat}
    {quality : Option Nat} {resize : Option (Nat × Nat)} {urlSafe : Bool} {enc : List Char}
    (h : encodeImageToBase64 lib fs path format quality resize urlSafe = .ok enc) :
    ∃ buffer, enc = (Alphabet.ofUrlSafe urlSafe).encode buffer := by
  simp only [encodeImageToBase64, except_bind_eq_ok] at h
  obtain ⟨_, _, _, _, _, _, h⟩ := h
  split at h
  · cases h
  · obtain ⟨_, _, h⟩ := except_bind_eq_ok.mp h
    obtain ⟨buffer, _, h⟩ := except_bind_eq_ok.mp h
    cases h
    exact ⟨buffer, rfl⟩

theorem encodeMultipleImages_some {fs fs' : Fs} {paths : List (List Char)}
    {format : Option ImageFormat} {quality : Option Nat} {resize : Option (Nat × Nat)}
    {urlSafe : Bool} {outputFile : List Char}
    (h : encodeMultipleImages lib paths format quality resize urlSafe (some outputFile) fs =
      .ok () fs') :
    ∃ results rp, (paths.mapM fun path => do
        let encoded ← encodeImageToBase64 lib fs path format quality resize urlSafe
        pure (path, encoded)) = .ok results ∧
      fs.locate true (sysPath outputFile) = .ok rp ∧ fs.Grows fs' ∧
      ∃ m, fs'.get rp =
        some (.file (utf8Encode (results.flatMap fun r => resultLine r.1 r.2)) m) := by
  obtain ⟨results, hres, h⟩ := query_bind_ok h
  obtain ⟨fs₁, rp, hcreate, h⟩ := call_bind_ok h
  obtain ⟨hloc, -, m, -, hu, -⟩ := createTrunc_ok (mapError_eq_ok.mp hcreate)
  simp only [modify, modifyGet, MonadStateOf.modifyGet, EStateM.modifyGet, EStateM.Result.ok.injEq,
    true_and] at h
  subst h
  have hbytes :=
    appendAt_updates hu.get_eq (utf8Encode (results.flatMap fun r => resultLine r.1 r.2))
  exact ⟨results, rp, hres, hloc,
    (grows_of_createTrunc (mapError_eq_ok.mp hcreate)).trans (grows_appendAt _ _ _), _,
    by simpa using hbytes.get_eq⟩

theorem lines_results {p₀ e₀ : List Char} {rs : List (List Char × List Char)} {urlSafe : Bool}
    (hp₀ : '\n' ∉ p₀) (he₀ : ∀ c ∈ e₀, c ∈ (Alphabet.ofUrlSafe urlSafe).chars ∨ c = '=') :
    ∃ line ls, lines (((p₀, e₀) :: rs).flatMap fun r => resultLine r.1 r.2) = line :: ls ∧
      ':' ∈ line := by
  have hnl : '\n' ∉ p₀ ++ ": ".toList ++ e₀ := by
    simp only [List.mem_append, not_or]
    refine ⟨⟨hp₀, by decide⟩, fun h => ?_⟩
    rcases he₀ _ h with h | h
    · exact newline_not_mem urlSafe h
    · exact absurd h (by decide)
  refine ⟨_, _, by simpa [lines, resultLine] using linesFrom_append_newline [] _ _ hnl, ?_⟩
  split <;> simp

/-- **The first line of a batch never decodes:** the line `encode_multiple_images` writes holds the
path and `: `, and `:` is no Base64 symbol. -/
theorem batchDecode_fails_at_first_line {fs fs' : Fs} (p₀ : List Char) (ps : List (List Char))
    (format : Option ImageFormat) (quality : Option Nat) (resize : Option (Nat × Nat))
    (urlSafe : Bool) (outputFile outputDir : List Char) (hp₀ : '\n' ∉ p₀)
    (henc : encodeMultipleImages lib (p₀ :: ps) format quality resize urlSafe (some outputFile) fs =
      .ok () fs') :
    ∃ e, batchDecode lib outputFile outputDir urlSafe fs' = .error (.base64 e) fs' := by
  obtain ⟨results, rp, hres, hloc, hg, m, hget⟩ := encodeMultipleImages_some lib henc
  simp only [List.mapM_cons, except_bind_eq_ok] at hres
  obtain ⟨r₀, ⟨enc, he₀, hr₀⟩, rs, -, hres⟩ := hres
  cases hres
  cases hr₀
  obtain ⟨buffer, rfl⟩ := encodeImageToBase64_ok lib he₀
  obtain ⟨line, ls, hlines, hcolon⟩ :=
    (lines_results hp₀ fun c hc => (Alphabet.ofUrlSafe urlSafe).mem_encode hc :
      ∃ line ls, lines _ = line :: ls ∧ ':' ∈ line)
  have hread : readToString fs' outputFile = .ok
      (((p₀, (Alphabet.ofUrlSafe urlSafe).encode buffer) :: rs).flatMap
        fun r => resultLine r.1 r.2) := by
    simp [readToString, stat_of_get (locate_of_grows hg hloc) hget, readAt, hget,
      utf8Decode_utf8Encode, bind, Except.bind, pure, Except.pure]
  obtain ⟨e, hdecode⟩ := decode_trim_of_colon urlSafe hcolon
  refine ⟨e, ?_⟩
  rw [batchDecode, query_bind_of_ok (by rw [hread]; rfl), hlines, decodeLines]
  refine bind_of_error ?_
  rw [decodeBase64ToImage, query_bind_of_error (by rw [hdecode]; rfl)]

end Tool

/-- An image library that hands the bytes through unchanged. -/
def ImageLib.passThrough : ImageLib Bytes where
  decodeFile _ bytes := some bytes
  decodeGuessed := some
  resizeExact img _ _ := img
  writeTo img _ := some img

def batchFs : Fs :=
  stateOf (encodeMultipleImages ImageLib.passThrough ["/a".toList] none none none false
    (some "/out".toList) oneFileFs)

theorem batchDecode_fails_at_first_line_oneFile :
    '\n' ∉ "/a".toList ∧
    encodeMultipleImages ImageLib.passThrough ["/a".toList] none none none false
      (some "/out".toList) oneFileFs = .ok () batchFs ∧
    ∃ e, batchDecode ImageLib.passThrough "/out".toList "/x".toList false batchFs =
      .error (.base64 e) batchFs :=
  have hp : '\n' ∉ "/a".toList := by decide
  have henc : encodeMultipleImages ImageLib.passThrough ["/a".toList] none none none false
      (some "/out".toList) oneFileFs = .ok () batchFs := rfl
  ⟨hp, henc, batchDecode_fails_at_first_line ImageLib.passThrough "/a".toList [] none none none
    false "/out".toList "/x".toList hp henc⟩

theorem batchDecode_oneFile_stops_at_colon :
    batchDecode ImageLib.passThrough "/out".toList "/x".toList false batchFs =
      .error (.base64 (.invalidByte 2 ':')) batchFs :=
  rfl

end LithiumTools
