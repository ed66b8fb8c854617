import LithiumTools.Base64

/-!
# The two Base64 alphabets

The standard and URL-safe alphabets differ only in `+`, `/` against `-`, `_`, and decoding reads
a text only through its characters' values.
-/

namespace LithiumTools

namespace Alphabet

section Congr

variable {a b : Alphabet}

theorem sym_congr (pos : Nat) {c : Char} (h : a.value c = b.value c) :
    a.sym pos c = b.sym pos c := by
  simp only [sym, h]

theorem completeQuadsLen_congr {s : List Char} (h : ∀ c ∈ s, a.value c = b.value c) :
    a.completeQuadsLen s = b.completeQuadsLen s := by
  unfold completeQuadsLen
  cases hl : s.getLast? with
  | none => rfl
  | some c => simp only [h c (List.mem_of_getLast?_eq_some hl)]

theorem decodeQuads_congr (pos : Nat) {t : List Char} (h : ∀ c ∈ t, a.value c = b.value c) :
    a.decodeQuads pos t = b.decodeQuads pos t := by
  induction pos, t using decodeQuads.induct a with
  | case1 pos c0 c1 c2 c3 rest ih =>
    simp only [decodeQuads, sym_congr _ (h c0 (by simp)), sym_congr _ (h c1 (by simp)),
      sym_congr _ (h c2 (by simp)), sym_congr _ (h c3 (by simp)),
      ih fun c hc => h c (by simp [hc])]
  | case2 t pos ht =>
    match t, ht with
    | _ :: _ :: _ :: _ :: _, ht => exact absurd rfl (ht _ _ _ _ _)
    | [], _ | [_], _ | [_, _], _ | [_, _, _], _ => rfl

theorem suffixMorsels_congr (pos : Nat) {cs : List Char} (h : ∀ c ∈ cs, a.value c = b.value c) :
    ∀ i syms pads first,
      a.suffixMorsels pos i syms pads first cs = b.suffixMorsels pos i syms pads first cs := by
  induction cs with
  | nil => intros; rfl
  | cons c cs ih =>
    intro i syms pads first
    have ih' := ih fun d hd => h d (List.mem_cons_of_mem c hd)
    simp only [suffixMorsels, h c (List.mem_cons_self c cs), ih']

theorem decode_congr {s : List Char} (h : ∀ c ∈ s, a.value c = b.value c) :
    a.decode s = b.decode s := by
  simp only [decode, decodeSuffix, completeQuadsLen_congr h]
  congr 1
  funext k
  rw [decodeQuads_congr 0 fun c hc => h c (List.mem_of_mem_take hc),
    suffixMorsels_congr k (fun c hc => h c (List.mem_of_mem_drop hc))]

end Congr

def shared : List Char := "ABCDEFGHIJKLMNOPQRSTUVWXYZabcdefghijklmnopqrstuvwxyz0123456789".toList

theorem standard_chars : standard.chars = shared ++ ['+', '/'] := rfl

theorem urlSafe_chars : urlSafe.chars = shared ++ ['-', '_'] := rfl

theorem value_standard_eq {c : Char} (hc : c ∉ ['+', '/', '-', '_']) :
    standard.value c = urlSafe.value c := by
  simp only [List.mem_cons, List.not_mem_nil, or_false, not_or] at hc
  by_cases hs : c ∈ shared
  · simp [value, standard_chars, urlSafe_chars, hs, List.indexOf_append_of_mem hs]
  · simp [value, standard_chars, urlSafe_chars, hs, hc.1, hc.2.1, hc.2.2.1, hc.2.2.2]

/-- **A text is read back by the other alphabet only without the symbols it lacks:** to the same
bytes without `+`, `/`, `-`, `_`, and not at all with one. -/
theorem decode_other_alphabet (urlSafe : Bool) (bytes : Bytes) :
    ((∀ c ∈ (ofUrlSafe urlSafe).encode bytes, c ∉ ['+', '/', '-', '_']) →
      (ofUrlSafe (!urlSafe)).decode ((ofUrlSafe urlSafe).encode bytes) = .ok bytes) ∧
    ((∃ c ∈ (ofUrlSafe urlSafe).encode bytes, c ∈ ['+', '/', '-', '_']) →
      ∃ e, (ofUrlSafe (!urlSafe)).decode ((ofUrlSafe urlSafe).encode bytes) = .error e) := by
  refine ⟨fun h => ?_, fun ⟨c, hc, hsp⟩ => ?_⟩
  · have hvalue : ∀ c ∈ (ofUrlSafe urlSafe).encode bytes,
        (ofUrlSafe (!urlSafe)).value c = (ofUrlSafe urlSafe).value c := fun c hc => by
      cases urlSafe <;> simp [ofUrlSafe, value_standard_eq (h c hc)]
    rw [decode_congr hvalue]
    exact (ofUrlSafe urlSafe).decode_encode bytes
  · -- a symbol of its own alphabet that the other lacks
    have hpad : c ≠ '=' := by
      rintro rfl
      simp at hsp
    have hsym : c ∉ (ofUrlSafe (!urlSafe)).chars := by
      rcases (ofUrlSafe urlSafe).mem_encode hc with h | h
      · simp only [List.mem_cons, List.not_mem_nil, or_false] at hsp
        rcases hsp with rfl | rfl | rfl | rfl <;> cases urlSafe <;> revert h <;> decide
      · exact absurd h hpad
    cases hd : (ofUrlSafe (!urlSafe)).decode ((ofUrlSafe urlSafe).encode bytes) with
    | error e => exact ⟨e, rfl⟩
    | ok r => exact absurd hd (decode_of_not_mem hsym hpad hc r)

theorem decode_other_alphabet_examples :
    urlSafe.decode (standard.encode [1, 2]) = .ok [1, 2] ∧
    ∃ e, urlSafe.decode (standard.encode [0xfb]) = .error e :=
  ⟨(decode_other_alphabet false [1, 2]).1 (by decide),
    (decode_other_alphabet false [0xfb]).2 ⟨'+', by decide, by decide⟩⟩

end Alphabet

end LithiumTools
