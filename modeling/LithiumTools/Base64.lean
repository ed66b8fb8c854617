import Mathlib.Data.List.Nodup
import Mathlib.Data.List.GetD
import Mathlib.Algebra.Group.Nat.Basic
import LithiumTools.FileSystem

/-!
# Base64

The `base64` crate's `STANDARD` and `URL_SAFE` engines (RFC 4648), decoding as its
`GeneralPurpose` engine does: canonical padding, and no bits left over in a padded group.
-/

namespace LithiumTools

/-- A Base64 alphabet: sixty-four distinct symbols, the padding `=` not among them. -/
structure Alphabet where
  chars : List Char
  nodup : chars.Nodup
  length_eq : chars.length = 64
  pad_not_mem : '=' ∉ chars

namespace Alphabet

def standard : Alphabet where
  chars := "ABCDEFGHIJKLMNOPQRSTUVWXYZabcdefghijklmnopqrstuvwxyz0123456789+/".toList
  nodup := List.Nodup.of_map Char.toNat (by decide)
  length_eq := rfl
  pad_not_mem := by decide

def urlSafe : Alphabet where
  chars := "ABCDEFGHIJKLMNOPQRSTUVWXYZabcdefghijklmnopqrstuvwxyz0123456789-_".toList
  nodup := List.Nodup.of_map Char.toNat (by decide)
  length_eq := rfl
  pad_not_mem := by decide

def ofUrlSafe (urlSafe : Bool) : Alphabet :=
  if urlSafe then Alphabet.urlSafe else Alphabet.standard

variable (a : Alphabet)

def symbol (k : Nat) : Char := a.chars.getD k '='

def value (c : Char) : Option Nat :=
  if c ∈ a.chars then some (a.chars.indexOf c) else none

theorem symbol_mem {k : Nat} (hk : k < 64) : a.symbol k ∈ a.chars := by
  rw [symbol, List.getD_eq_getElem _ _ (by rw [a.length_eq]; exact hk)]
  exact List.getElem_mem _

theorem symbol_mem_or (k : Nat) : a.symbol k ∈ a.chars ∨ a.symbol k = '=' := by
  by_cases hk : k < 64
  · exact .inl (a.symbol_mem hk)
  · right
    rw [symbol, List.getD_eq_default _ _ (by rw [a.length_eq]; omega)]

theorem symbol_ne_pad {k : Nat} (hk : k < 64) : a.symbol k ≠ '=' :=
  fun h => a.pad_not_mem (h ▸ a.symbol_mem hk)

@[simp] theorem value_symbol {k : Nat} (hk : k < 64) : a.value (a.symbol k) = some k := by
  have hk' : k < a.chars.length := by rw [a.length_eq]; exact hk
  rw [value, if_pos (a.symbol_mem hk), symbol, List.getD_eq_getElem _ _ hk',
    List.indexOf_getElem a.nodup]

theorem value_eq_none {c : Char} (h : c ∉ a.chars) : a.value c = none := by
  simp [value, h]

end Alphabet

inductive DecodeError
  | invalidByte (offset : Nat) (byte : Char)
  | invalidLength (length : Nat)
  | invalidLastSymbol (offset : Nat) (byte : Char)
  | invalidPadding
  deriving DecidableEq

namespace Alphabet

variable (a : Alphabet)

/-- `Engine::encode`: each three bytes as four symbols; the last one or two bytes as two or
three symbols, padded to four. -/
def encode : Bytes → List Char
  | b0 :: b1 :: b2 :: rest =>
    let n := b0.toNat * 0x10000 + b1.toNat * 0x100 + b2.toNat
    [n / 0x40000, n / 0x1000 % 64, n / 64 % 64, n % 64].map a.symbol ++ encode rest
  | [b0, b1] =>
    let n := b0.toNat * 0x10000 + b1.toNat * 0x100
    [n / 0x40000, n / 0x1000 % 64, n / 64 % 64].map a.symbol ++ ['=']
  | [b0] => [b0.toNat / 4, b0.toNat % 4 * 16].map a.symbol ++ ['=', '=']
  | [] => []

def sym (pos : Nat) (c : Char) : Except DecodeError Nat :=
  match a.value c with
  | some k => .ok k
  | none => .error (.invalidByte pos c)

/-- `complete_quads_len`: how many characters the loop over whole groups takes, all but the last
group. A last lone character that is neither a symbol nor the padding is reported first. -/
def completeQuadsLen (s : List Char) : Except DecodeError Nat :=
  let rem := s.length % 4
  match s.getLast? with
  | some c =>
    if rem = 1 ∧ c ≠ '=' ∧ a.value c = none then .error (.invalidByte (s.length - 1) c)
    else .ok (s.length - rem - if rem = 0 then 4 else 0)
  | none => .ok 0

/-- `decode_chunk_4`, group after group from offset `pos`: four symbols make three bytes, and a
`=` among them is an invalid byte. -/
def decodeQuads : Nat → List Char → Except DecodeError Bytes
  | pos, c0 :: c1 :: c2 :: c3 :: rest => do
    let k0 ← a.sym pos c0
    let k1 ← a.sym (pos + 1) c1
    let k2 ← a.sym (pos + 2) c2
    let k3 ← a.sym (pos + 3) c3
    let n := k0 * 0x40000 + k1 * 0x1000 + k2 * 64 + k3
    let bytes ← decodeQuads (pos + 4) rest
    pure ([UInt8.ofNat (n / 0x10000), UInt8.ofNat (n / 0x100 % 0x100), UInt8.ofNat (n % 0x100)] ++
      bytes)
  | _, _ => .ok []

/-- The loop of `decode_suffix` over the last group at offset `pos`, from its `i`-th character:
the symbols read with their values, and the padding met since the first, at offset `first`. -/
def suffixMorsels (pos : Nat) :
    Nat → List (Char × Nat) → Nat → Nat → List Char → Except DecodeError (List (Char × Nat) × Nat)
  | _, syms, pads, _, [] => .ok (syms, pads)
  | i, syms, pads, first, c :: cs =>
    if c = '=' then
      if i < 2 then .error (.invalidByte (pos + i) c)
      else suffixMorsels pos (i + 1) syms (pads + 1) (if pads = 0 then i else first) cs
    else if 0 < pads then .error (.invalidByte (pos + first) '=')
    else match a.value c with
      | some k => suffixMorsels pos (i + 1) (syms ++ [(c, k)]) pads first cs
      | none => .error (.invalidByte (pos + i) c)

/-- `decode_suffix`: the last group of `input`, from offset `pos`. Padding must be canonical,
and the bits the last symbol has beyond the bytes must be zero. -/
def decodeSuffix (input : List Char) (pos : Nat) : Except DecodeError Bytes := do
  let (syms, pads) ← a.suffixMorsels pos 0 [] 0 0 (input.drop pos)
  if input ≠ [] ∧ syms.length < 2 then throw (.invalidLength (pos + syms.length))
  if (pads + syms.length) % 4 ≠ 0 then throw .invalidPadding
  let n := syms.foldl (fun acc s => acc * 64 + s.2) 0 * 64 ^ (4 - syms.length)
  let bytes := syms.length * 6 / 8
  if n % 2 ^ (24 - 8 * bytes) ≠ 0 then
    throw (.invalidLastSymbol (pos + syms.length - 1) ((syms.getLast?.map (·.1)).getD '\x00'))
  pure ((List.range bytes).map fun j => UInt8.ofNat (n / 2 ^ (16 - 8 * j)))

/-- `Engine::decode`: the whole groups, then the last. -/
def decode (s : List Char) : Except DecodeError Bytes := do
  let k ← a.completeQuadsLen s
  let quads ← a.decodeQuads 0 (s.take k)
  let last ← a.decodeSuffix s k
  pure (quads ++ last)

@[simp] theorem sym_symbol (pos : Nat) {k : Nat} (hk : k < 64) :
    a.sym pos (a.symbol k) = .ok k := by
  simp [sym, a.value_symbol hk]

theorem sym_of_not_mem (pos : Nat) {c : Char} (h : c ∉ a.chars) :
    a.sym pos c = .error (.invalidByte pos c) := by
  simp [sym, a.value_eq_none h]

theorem uint8_ofNat_eq {n : Nat} {b : UInt8} (h : n % 0x100 = b.toNat) : UInt8.ofNat n = b := by
  apply UInt8.toNat.inj
  exact h

theorem encode_append {xs : Bytes} (hxs : xs.length % 3 = 0) (ys : Bytes) :
    a.encode (xs ++ ys) = a.encode xs ++ a.encode ys := by
  induction xs using encode.induct a with
  | case1 b0 b1 b2 rest ih =>
    simp only [List.length_cons] at hxs
    simp only [List.cons_append, encode, List.append_eq, ih (by omega), List.append_assoc]
  | case2 b0 b1 => simp at hxs
  | case3 b0 => simp at hxs
  | case4 => rfl

theorem length_encode_mod (bs : Bytes) : (a.encode bs).length % 4 = 0 := by
  induction bs using encode.induct a with
  | case1 b0 b1 b2 rest ih => simp only [encode, List.length_append, List.length_map]; simpa
  | case2 | case3 => simp [encode]
  | case4 => rfl

theorem decodeQuads_encode (pos : Nat) {xs : Bytes} (hxs : xs.length % 3 = 0) :
    a.decodeQuads pos (a.encode xs) = .ok xs := by
  induction xs using encode.induct a generalizing pos with
  | case1 b0 b1 b2 rest ih =>
    have h0 := b0.toNat_lt_size
    have h1 := b1.toNat_lt_size
    have h2 := b2.toNat_lt_size
    simp only [UInt8.size] at h0 h1 h2
    simp only [List.length_cons] at hxs
    simp only [encode, List.map_cons, List.map_nil, List.cons_append, List.nil_append, decodeQuads,
      sym_symbol a _ (Nat.mod_lt _ (by decide : 0 < 64)),
      sym_symbol a _ (by omega : (b0.toNat * 0x10000 + b1.toNat * 0x100 + b2.toNat) / 0x40000 < 64),
      List.append_eq, List.nil_append, ih _ (by omega), bind, Except.bind, pure, Except.pure,
      Except.ok.injEq, List.cons.injEq, and_true]
    refine ⟨uint8_ofNat_eq ?_, uint8_ofNat_eq ?_, uint8_ofNat_eq ?_⟩ <;> omega
  | case2 b0 b1 => simp at hxs
  | case3 b0 => simp at hxs
  | case4 => rfl

/-- `decode_suffix` once the symbols of the last group are read and pass its checks. -/
theorem decodeSuffix_of_morsels {input : List Char} {pos : Nat} {syms : List (Char × Nat)}
    {pads : Nat} (h : a.suffixMorsels pos 0 [] 0 0 (input.drop pos) = .ok (syms, pads))
    (hlen : 2 ≤ syms.length) (hpad : (pads + syms.length) % 4 = 0)
    (hbits : syms.foldl (fun acc s => acc * 64 + s.2) 0 * 64 ^ (4 - syms.length) %
      2 ^ (24 - 8 * (syms.length * 6 / 8)) = 0) :
    a.decodeSuffix input pos = .ok ((List.range (syms.length * 6 / 8)).map fun j =>
      UInt8.ofNat (syms.foldl (fun acc s => acc * 64 + s.2) 0 * 64 ^ (4 - syms.length) /
        2 ^ (16 - 8 * j))) := by
  simp only [decodeSuffix, h, bind, Except.bind]
  rw [if_neg fun h => absurd h.2 (by omega), if_neg (not_not.2 hpad), if_neg (not_not.2 hbits)]
  rfl

theorem decodeSuffix_encode (input : List Char) (pos : Nat) {ys : Bytes} (hys : ys ≠ [])
    (hlen : ys.length ≤ 3) (hdrop : input.drop pos = a.encode ys) :
    a.decodeSuffix input pos = .ok ys := by
  have hk : ∀ k, k < 64 → a.symbol k ≠ '=' ∧ a.value (a.symbol k) = some k :=
    fun k hk => ⟨a.symbol_ne_pad hk, a.value_symbol hk⟩
  rcases ys with _ | ⟨b0, _ | ⟨b1, _ | ⟨b2, _ | ⟨b3, ys⟩⟩⟩⟩
  · exact absurd rfl hys
  · -- one byte: two symbols and two paddings
    have h0 := b0.toNat_lt_size
    simp only [UInt8.size] at h0
    have hm := hdrop ▸ show a.suffixMorsels pos 0 [] 0 0 (a.encode [b0]) = _ by
      simp only [encode, List.map_cons, List.map_nil, List.cons_append, List.nil_append,
        suffixMorsels, hk _ (by omega : b0.toNat / 4 < 64),
        hk _ (by omega : b0.toNat % 4 * 16 < 64), if_true, if_false]
      rfl
    rw [a.decodeSuffix_of_morsels hm (by simp) (by simp) (by simp; omega)]
    simp [List.range_succ]
    exact uint8_ofNat_eq (by omega)
  · -- two bytes: three symbols and one padding
    have h0 := b0.toNat_lt_size
    have h1 := b1.toNat_lt_size
    simp only [UInt8.size] at h0 h1
    have hm := hdrop ▸ show a.suffixMorsels pos 0 [] 0 0 (a.encode [b0, b1]) = _ by
      simp only [encode, List.map_cons, List.map_nil, List.cons_append, List.nil_append,
        suffixMorsels, hk _ (Nat.mod_lt _ (by decide : 0 < 64)),
        hk _ (by omega : (b0.toNat * 0x10000 + b1.toNat * 0x100) / 0x40000 < 64), if_true, if_false]
      rfl
    rw [a.decodeSuffix_of_morsels hm (by simp) (by simp) (by simp; omega)]
    simp [List.range_succ]
    exact ⟨uint8_ofNat_eq (by omega), uint8_ofNat_eq (by omega)⟩
  · -- three bytes: four symbols
    have h0 := b0.toNat_lt_size
    have h1 := b1.toNat_lt_size
    have h2 := b2.toNat_lt_size
    simp only [UInt8.size] at h0 h1 h2
    have hm := hdrop ▸ show a.suffixMorsels pos 0 [] 0 0 (a.encode [b0, b1, b2]) = _ by
      simp only [encode, List.map_cons, List.map_nil, List.cons_append, List.nil_append,
        suffixMorsels, hk _ (Nat.mod_lt _ (by decide : 0 < 64)),
        hk _ (by omega : (b0.toNat * 0x10000 + b1.toNat * 0x100 + b2.toNat) / 0x40000 < 64),
        if_true, if_false]
      rfl
    rw [a.decodeSuffix_of_morsels hm (by simp) (by simp) (by simp; exact Nat.mod_one _)]
    simp [List.range_succ]
    refine ⟨uint8_ofNat_eq ?_, uint8_ofNat_eq ?_, uint8_ofNat_eq ?_⟩ <;> omega
  · simp at hlen

theorem completeQuadsLen_of_mod {s : List Char} (hs : s ≠ []) (h4 : s.length % 4 = 0) :
    a.completeQuadsLen s = .ok (s.length - 4) := by
  obtain ⟨c, hc⟩ := Option.ne_none_iff_exists'.mp (mt List.getLast?_eq_none_iff.mp hs)
  simp [completeQuadsLen, hc, h4]

theorem completeQuadsLen_ok {s : List Char} {k : Nat} (h : a.completeQuadsLen s = .ok k) :
    k % 4 = 0 ∧ k ≤ s.length := by
  unfold completeQuadsLen at h
  split at h
  · dsimp only at h
    split_ifs at h <;> cases h <;> omega
  · cases h; omega

theorem decode_encode (bs : Bytes) : a.decode (a.encode bs) = .ok bs := by
  rcases eq_or_ne bs [] with rfl | hbs
  · rfl
  -- the whole triples, and the last one to three bytes
  obtain ⟨xs, ys, rfl, hxs, hys, hlen⟩ : ∃ xs ys : Bytes, bs = xs ++ ys ∧ xs.length % 3 = 0 ∧
      ys ≠ [] ∧ ys.length ≤ 3 := by
    have hpos : 0 < bs.length := List.length_pos.mpr hbs
    refine ⟨bs.take (3 * ((bs.length - 1) / 3)), bs.drop (3 * ((bs.length - 1) / 3)),
      (List.take_append_drop _ _).symm, ?_, ?_, ?_⟩
    · rw [List.length_take]; omega
    · rw [ne_eq, List.drop_eq_nil_iff]; omega
    · rw [List.length_drop]; omega
  have hlast : (a.encode ys).length = 4 := by
    rcases ys with _ | ⟨b0, _ | ⟨b1, _ | ⟨b2, _ | ⟨b3, ys⟩⟩⟩⟩ <;> simp_all [encode]
  have hne : a.encode xs ++ a.encode ys ≠ [] := by
    simp [← List.length_pos, hlast]
  have h4 : (a.encode xs ++ a.encode ys).length % 4 = 0 := by
    have := a.length_encode_mod xs
    rw [List.length_append, hlast]
    omega
  have hk := a.completeQuadsLen_of_mod hne h4
  simp only [List.length_append, hlast, Nat.add_sub_cancel] at hk
  rw [a.encode_append hxs, decode, hk]
  simp only [List.take_left, a.decodeQuads_encode 0 hxs,
    a.decodeSuffix_encode _ _ hys hlen (List.drop_left' rfl), bind, Except.bind, pure, Except.pure]

theorem mem_encode {bs : Bytes} {c : Char} (h : c ∈ a.encode bs) : c ∈ a.chars ∨ c = '=' := by
  induction bs using encode.induct a with
  | case1 b0 b1 b2 rest ih =>
    simp only [encode, List.mem_append, List.mem_map] at h
    rcases h with ⟨k, -, rfl⟩ | h
    · exact a.symbol_mem_or k
    · exact ih h
  | case2 b0 b1 | case3 b0 =>
    simp only [encode, List.mem_append, List.mem_map, List.mem_singleton, List.mem_cons,
      List.not_mem_nil, or_false] at h
    rcases h with ⟨k, -, rfl⟩ | h
    · exact a.symbol_mem_or k
    · simp_all
  | case4 => simp [encode] at h

section NotMem

variable {a} {c : Char} (hsym : c ∉ a.chars)
include hsym

theorem decodeQuads_of_not_mem (pos : Nat) {t : List Char} (hc : c ∈ t) (h4 : t.length % 4 = 0) :
    ∀ bs, a.decodeQuads pos t ≠ .ok bs := by
  have hbad : ∀ pos k, a.sym pos c ≠ .ok k := by simp [a.sym_of_not_mem _ hsym]
  induction pos, t using decodeQuads.induct a with
  | case1 pos c0 c1 c2 c3 rest ih =>
    intro bs h
    simp only [decodeQuads, except_bind_eq_ok] at h
    obtain ⟨k0, h0, k1, h1, k2, h2, k3, h3, r, hr, -⟩ := h
    simp only [List.mem_cons] at hc
    rcases hc with rfl | rfl | rfl | rfl | hc
    · exact hbad _ _ h0
    · exact hbad _ _ h1
    · exact hbad _ _ h2
    · exact hbad _ _ h3
    · exact ih hc (by simp only [List.length_cons] at h4; omega) r hr
  | case2 t pos ht =>
    match t, ht, hc, h4 with
    | _ :: _ :: _ :: _ :: _, ht, _, _ => exact absurd rfl (ht _ _ _ _ _)
    | [_], _, _, h4 | [_, _], _, _, h4 | [_, _, _], _, _, h4 => simp at h4

variable (hpad : c ≠ '=')
include hpad

theorem suffixMorsels_of_not_mem (pos : Nat) {cs : List Char} (hc : c ∈ cs) :
    ∀ i syms pads first r, a.suffixMorsels pos i syms pads first cs ≠ .ok r := by
  induction cs with
  | nil => simp at hc
  | cons d cs ih =>
    intro i syms pads first r h
    rcases List.mem_cons.1 hc with rfl | hc
    · by_cases hp : 0 < pads <;> simp [suffixMorsels, hpad, hp, a.value_eq_none hsym] at h
    · rw [suffixMorsels.eq_2] at h
      by_cases hd : d = '='
      · by_cases hi : i < 2
        · simp [hd, hi] at h
        · rw [if_pos hd, if_neg hi] at h
          exact ih hc _ _ _ _ _ h
      · by_cases hp : 0 < pads
        · simp [hd, hp] at h
        · rw [if_neg hd, if_neg hp] at h
          split at h
          · exact ih hc _ _ _ _ _ h
          · cases h

theorem decode_of_not_mem {s : List Char} (hc : c ∈ s) : ∀ bs, a.decode s ≠ .ok bs := by
  intro bs h
  simp only [decode, except_bind_eq_ok] at h
  obtain ⟨k, hk, q, hq, l, hl, -⟩ := h
  obtain ⟨hk4, hks⟩ := a.completeQuadsLen_ok hk
  rw [← List.take_append_drop k s, List.mem_append] at hc
  rcases hc with hc | hc
  · exact decodeQuads_of_not_mem hsym 0 hc (by rw [List.length_take]; omega) q hq
  · simp only [decodeSuffix, except_bind_eq_ok] at hl
    obtain ⟨⟨syms, pads⟩, hm, -⟩ := hl
    exact suffixMorsels_of_not_mem hsym hpad k hc _ _ _ _ _ hm

end NotMem

end Alphabet

end LithiumTools
