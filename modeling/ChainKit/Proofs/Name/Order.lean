import ChainKit.Proofs.Name.Text

namespace ChainKit

namespace Lexicographic
set_option autoImplicit true

theorem not_lt_zeros {xs : List Nat} (h : k ≤ xs.length) : ¬xs < List.replicate k 0 := by
  induction xs generalizing k with
  | nil =>
    cases Nat.le_zero.mp h
    exact List.not_lt_nil _
  | cons x xs ih =>
    cases k with
    | zero => exact List.not_lt_nil _
    | succ k =>
      rw [List.replicate_succ, List.cons_lt_cons_iff]
      rintro (hx | ⟨-, hxs⟩)
      · exact Nat.not_lt_zero _ hx
      · exact ih (Nat.le_of_succ_le_succ h) hxs

/-- Zeros that fill lists up to one length do not decide which one is smaller. -/
theorem lt_of_append_zeros {xs ys : List Nat} (hlength : xs.length + j = ys.length + k)
    (h : xs ++ List.replicate j 0 < ys ++ List.replicate k 0) : xs < ys := by
  induction xs generalizing ys with
  | nil =>
    cases ys with
    | nil =>
      refine absurd h (not_lt_zeros ?_)
      rw [List.nil_append, List.length_replicate]
      rw [List.length_nil] at hlength
      omega
    | cons y ys => exact List.nil_lt_cons _ _
  | cons x xs ih =>
    cases ys with
    | nil =>
      refine absurd h (not_lt_zeros ?_)
      rw [List.length_append, List.length_replicate]
      rw [List.length_nil] at hlength
      omega
    | cons y ys =>
      rw [List.cons_append, List.cons_append, List.cons_lt_cons_iff] at h
      rw [List.cons_lt_cons_iff]
      refine h.imp_right fun ⟨hxy, hrest⟩ => ⟨hxy, ih ?_ hrest⟩
      simp only [List.length_cons] at hlength
      omega

theorem map_lt_map [LT α] [LT β] {f : α → β} {xs ys : List α}
    (hf : ∀ y ∈ ys, ∀ x < y, f x < f y) (h : xs < ys) : xs.map f < ys.map f := by
  induction xs generalizing ys with
  | nil =>
    cases ys with
    | nil => exact absurd h (List.not_lt_nil _)
    | cons y ys => exact List.nil_lt_cons _ _
  | cons x xs ih =>
    cases ys with
    | nil => exact absurd h (List.not_lt_nil _)
    | cons y ys =>
      obtain ⟨hy, hys⟩ := List.forall_mem_cons.mp hf
      rw [List.cons_lt_cons_iff] at h
      rw [List.map_cons, List.map_cons, List.cons_lt_cons_iff]
      rcases h with hxy | ⟨rfl, hrest⟩
      · exact .inl (hy x hxy)
      · exact .inr ⟨rfl, ih hys hrest⟩

end Lexicographic

namespace Name
set_option autoImplicit true

theorem fives_lt_fives (h : p % 32 ^ places < q % 32 ^ places) : fives places p < fives places q := by
  induction places with
  | zero =>
    rw [Nat.pow_zero, Nat.mod_one, Nat.mod_one] at h
    exact absurd h (Nat.lt_irrefl 0)
  | succ places ih =>
    have hp : p % 32 ^ places < 32 ^ places := Nat.mod_lt _ (Nat.pow_pos (by decide))
    rw [Nat.pow_succ, Nat.mod_mul, Nat.mod_mul] at h
    rw [fives_succ, fives_succ, List.cons_lt_cons_iff]
    rcases Nat.lt_trichotomy (p / 32 ^ places % 32) (q / 32 ^ places % 32) with hd | hd | hd
    · exact .inl hd
    · rw [hd] at h
      exact .inr ⟨hd, ih (by omega)⟩
    · have hmul := Nat.mul_le_mul_left (32 ^ places) (Nat.succ_le_of_lt hd)
      rw [Nat.mul_succ] at hmul
      omega

/-- The symbols of a packed name are those of a number with five bits for the 13th symbol too. -/
theorem unpack_eq_fives (v : Nat) : unpack v = fives 13 (v / 16 * 32 + v % 16) := by
  have hlow : (v / 16 * 32 + v % 16) % 32 = v % 16 := by omega
  have hhigh : (v / 16 * 32 + v % 16) / 32 = v / 16 := by omega
  have hlast : (v / 16 * 32 + v % 16) / 32 ^ (13 - 1 - 12) % 32 = v % 16 := by
    rw [Nat.sub_self, Nat.pow_zero, Nat.div_one, hlow]
  have hrest : ∀ i ∈ List.range 12,
      v / 16 / 32 ^ (12 - 1 - i) % 32 = (v / 16 * 32 + v % 16) / 32 ^ (13 - 1 - i) % 32 := by
    intro i hi
    have hi' := List.mem_range.mp hi
    rw [show 13 - 1 - i = (12 - 1 - i) + 1 by omega, Nat.pow_succ', ← Nat.div_div_eq_div_mul, hhigh]
  have hfront : fives 12 (v / 16) = (List.range 12).map fun i =>
      (v / 16 * 32 + v % 16) / 32 ^ (13 - 1 - i) % 32 := List.map_congr_left hrest
  have hrange : List.range 13 = List.range 12 ++ [12] := List.range_succ
  rw [unpack_eq, fives.eq_def 13, hrange, List.map_append, List.map_singleton, hlast, hfront]

theorem unpack_lt_unpack (h : v < w) (hw : w < 2 ^ 64) : unpack v < unpack w := by
  have hvalue : v / 16 * 32 + v % 16 < w / 16 * 32 + w % 16 := by omega
  have hwide : w / 16 * 32 + w % 16 < 32 ^ 13 := by omega
  rw [unpack_eq_fives, unpack_eq_fives]
  apply fives_lt_fives
  rwa [Nat.mod_eq_of_lt hwide, Nat.mod_eq_of_lt (Nat.lt_trans hvalue hwide)]

theorem significant_lt_significant (h : v < w) (hw : w < 2 ^ 64) : significant v < significant w := by
  obtain ⟨j, hj⟩ := significant_append_zeros v
  obtain ⟨k, hk⟩ := significant_append_zeros w
  have hlength : (significant v).length + j = (significant w).length + k := by
    have hv := congrArg List.length hj
    have hw := congrArg List.length hk
    rw [length_unpack, List.length_append, List.length_replicate] at hv hw
    rw [hv, hw]
  apply Lexicographic.lt_of_append_zeros hlength
  rw [hj, hk]
  exact unpack_lt_unpack h hw

theorem lt_of_mem_significant (h : d ∈ significant v) : d < 32 := by
  obtain ⟨k, hk⟩ := significant_append_zeros v
  exact lt_of_mem_unpack (hk ▸ List.mem_append_left _ h)

theorem symbol_lt_symbol (he : e < 32) (h : d < e) :
    UInt8.ofNat (symbol d).toNat < UInt8.ofNat (symbol e).toNat := by
  have hall : ∀ e < 32, ∀ d < e,
      UInt8.ofNat (symbol d).toNat < UInt8.ofNat (symbol e).toNat := by decide
  exact hall e he d h

theorem encode_text (n : Name) : Utf8.encode n.text =
    (significant n.value.toNat).map fun d => UInt8.ofNat (symbol d).toNat := by
  have hascii : ∀ c ∈ n.chars, c.toNat < 128 := by
    intro c hc
    rw [chars_eq] at hc
    obtain ⟨d, hd, rfl⟩ := List.mem_map.mp hc
    exact symbol_ascii (lt_of_mem_significant hd)
  rw [text, Utf8.encode_ascii hascii, chars_eq, List.map_map]
  rfl

theorem encode_text_lt {a b : Name} (h : a.value < b.value) :
    Utf8.encode a.text < Utf8.encode b.text := by
  rw [encode_text, encode_text]
  apply Lexicographic.map_lt_map
  · intro e he d hd
    exact symbol_lt_symbol (lt_of_mem_significant he) hd
  · exact significant_lt_significant (UInt64.lt_iff_toNat_lt.mp h) b.value.toNat_lt

/-- A name is smaller than another one just if its text is, byte by byte, where a text is smaller
than what goes on behind it. -/
theorem lt_iff_encode_text_lt (a b : Name) :
    a.value < b.value ↔ Utf8.encode a.text < Utf8.encode b.text := by
  constructor
  · exact encode_text_lt
  · intro h
    -- Values are ordered in one of three ways, two of which the texts exclude.
    rcases Nat.lt_trichotomy a.value.toNat b.value.toNat with hlt | heq | hgt
    · exact UInt64.lt_iff_toNat_lt.mpr hlt
    · have hab : a = b := Ranked.rank_inj heq
      exact absurd (hab ▸ h) (List.lt_irrefl _)
    · exact absurd (encode_text_lt (UInt64.lt_iff_toNat_lt.mpr hgt)) (List.lt_asymm h)

end Name
end ChainKit
