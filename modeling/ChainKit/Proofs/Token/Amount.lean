import ChainKit.Proofs.Result
import ChainKit.Proofs.Token.Symbol
import ChainKit.Token.Asset

namespace ChainKit.Asset
set_option autoImplicit true

/-- An amount as it is written: the digits before its point and behind it. If there are none behind
it, there is no point. -/
structure WrittenAmount where
  negative : Bool
  whole : List Char
  fraction : List Char

namespace WrittenAmount

variable (w : WrittenAmount)

def digits : List Char := w.whole ++ w.fraction

def unsigned : List Char := w.whole ++ if w.fraction = [] then [] else '.' :: w.fraction

def chars : List Char := if w.negative then '-' :: w.unsigned else w.unsigned

/-- The number that all digits spell, with the sign. -/
def value : Int :=
  if w.negative then -(Decimal.natOfDigits w.digits : Int) else Decimal.natOfDigits w.digits

/-- Whether there are digits in each part and not too many behind the point, and the number is in
range. -/
structure IsProper : Prop where
  whole_ne_nil : w.whole ≠ []
  isDigit : ∀ c ∈ w.digits, c.isDigit
  length_fraction_le : w.fraction.length ≤ 18
  low : -(2 ^ 63) ≤ w.value
  high : w.value < 2 ^ 63

end WrittenAmount

theorem le_foldl_digits (n : Nat) (cs : List Char) :
    n ≤ cs.foldl (fun n c => n * 10 + Decimal.digitValue c) n := by
  induction cs generalizing n with
  | nil => exact Nat.le_refl n
  | cons c cs ih => exact Nat.le_trans (by omega) (ih (n * 10 + Decimal.digitValue c))

/-- Reading stops just if the number that all digits spell is too great. -/
theorem magnitude?_eq (cs : List Char) :
    magnitude? 0 cs =
      if Decimal.natOfDigits cs ≤ maxMagnitude then some (Decimal.natOfDigits cs) else none := by
  suffices hfrom : ∀ n ≤ maxMagnitude, magnitude? n cs =
      if cs.foldl (fun n c => n * 10 + Decimal.digitValue c) n ≤ maxMagnitude then
        some (cs.foldl (fun n c => n * 10 + Decimal.digitValue c) n)
      else none from hfrom 0 (Nat.zero_le _)
  induction cs with
  | nil =>
    intro n hn
    exact (if_pos hn).symm
  | cons c cs ih =>
    intro n hn
    rw [magnitude?, List.foldl_cons]
    split
    · rename_i hgreat
      have hle := le_foldl_digits (n * 10 + Decimal.digitValue c) cs
      exact (if_neg (by omega)).symm
    · rename_i hsmall
      exact ih _ (Nat.le_of_not_lt hsmall)

theorem ranged_eq_ok : ranged text negative magnitude = .ok i ↔
    i = (if negative then -(magnitude : Int) else magnitude) ∧ -(2 ^ 63) ≤ i ∧ i < 2 ^ 63 := by
  unfold ranged
  generalize (if negative then -(magnitude : Int) else magnitude) = signed
  dsimp only
  constructor
  · intro h
    split at h
    · rename_i hrange
      cases h
      exact ⟨rfl, hrange⟩
    · cases h
  · rintro ⟨rfl, hrange⟩
    exact if_pos hrange

theorem magnitude?_of_ranged (h : ranged text negative (Decimal.natOfDigits cs) = .ok i) :
    magnitude? 0 cs = some (Decimal.natOfDigits cs) := by
  obtain ⟨rfl, hlow, hhigh⟩ := ranged_eq_ok.mp h
  have hmax : maxMagnitude = 2 ^ 63 := rfl
  rw [magnitude?_eq, if_pos]
  cases negative
  · simp only [Bool.false_eq_true, if_false] at hhigh
    omega
  · simp only [if_true] at hlow
    omega

theorem ofDigits_eq_ok (w : WrittenAmount) :
    ofDigits text w.negative w.whole w.fraction = .ok (i, p) ↔
      w.IsProper ∧ i = w.value ∧ p = w.fraction.length := by
  have hdigits : (w.whole ++ w.fraction).all Char.isDigit ↔ ∀ c ∈ w.digits, c.isDigit :=
    List.all_eq_true
  have hvalue : ranged text w.negative (Decimal.natOfDigits w.digits) = .ok i ↔
      i = w.value ∧ -(2 ^ 63) ≤ i ∧ i < 2 ^ 63 := ranged_eq_ok
  constructor
  · intro h
    rw [ofDigits] at h
    split at h
    · cases h
    rename_i hparts
    split at h
    · cases h
    rename_i hlength
    split at h
    · cases h
    rename_i magnitude hmagnitude
    obtain ⟨j, hj, hpair⟩ := Result.map_eq_ok.mp h
    cases hpair
    rw [magnitude?_eq] at hmagnitude
    split at hmagnitude
    · cases hmagnitude
      obtain ⟨rfl, hlow, hhigh⟩ := hvalue.mp hj
      simp only [not_or, Bool.not_eq_true', Bool.not_eq_false] at hparts
      exact ⟨⟨hparts.1, hdigits.mp hparts.2, Nat.le_of_not_lt hlength, hlow, hhigh⟩, rfl, rfl⟩
    · cases hmagnitude
  · rintro ⟨h, rfl, rfl⟩
    have hranged := hvalue.mpr ⟨rfl, h.low, h.high⟩
    have hmagnitude : magnitude? 0 (w.whole ++ w.fraction) = _ := magnitude?_of_ranged hranged
    have hparts : ¬(w.whole = [] ∨ (!(w.whole ++ w.fraction).all Char.isDigit) = true) := by
      rw [hdigits.mpr h.isDigit]
      simpa using h.whole_ne_nil
    have hlength : ¬Token.maxPrecision < w.fraction.length := Nat.not_lt.mpr h.length_fraction_le
    rw [ofDigits, if_neg hparts, if_neg hlength, hmagnitude]
    exact Result.map_eq_ok.mpr ⟨w.value, hranged, rfl⟩

theorem splitOnce?_unsigned (h : WrittenAmount.IsProper w) :
    Text.splitOnce? '.' w.unsigned =
      if w.fraction = [] then none else some (w.whole, w.fraction) := by
  have hdot : '.' ∉ w.whole := fun hm => nomatch h.isDigit _ (List.mem_append_left _ hm)
  rw [WrittenAmount.unsigned]
  split
  · rw [List.append_nil, Text.splitOnce?_eq_none hdot]
  · rw [Text.splitOnce?_append hdot]

theorem parseUnsigned_eq_ok : parseUnsigned text negative cs = .ok (i, p) ↔
    ∃ w : WrittenAmount, w.negative = negative ∧ cs = w.unsigned ∧ w.IsProper ∧ i = w.value ∧
      p = w.fraction.length := by
  constructor
  · intro h
    rw [parseUnsigned] at h
    split at h
    · obtain ⟨hproper, hi, hp⟩ := (ofDigits_eq_ok ⟨negative, cs, []⟩).mp h
      refine ⟨_, rfl, ?_, hproper, hi, hp⟩
      rw [WrittenAmount.unsigned, if_pos rfl, List.append_nil]
    · rename_i whole fraction hsplit
      split at h
      · cases h
      rename_i hfraction
      obtain ⟨hproper, hi, hp⟩ := (ofDigits_eq_ok ⟨negative, whole, fraction⟩).mp h
      refine ⟨_, rfl, ?_, hproper, hi, hp⟩
      rw [WrittenAmount.unsigned, if_neg hfraction]
      exact (Text.splitOnce?_eq_some hsplit).1
  · rintro ⟨w, rfl, rfl, h, rfl, rfl⟩
    have hdigits : ofDigits text w.negative w.whole w.fraction = .ok (w.value, w.fraction.length) :=
      (ofDigits_eq_ok w).mpr ⟨h, rfl, rfl⟩
    rw [parseUnsigned, splitOnce?_unsigned h]
    by_cases hfraction : w.fraction = []
    · have hunsigned : w.unsigned = w.whole := by
        rw [WrittenAmount.unsigned, if_pos hfraction, List.append_nil]
      rw [if_pos hfraction, hunsigned]
      rw [hfraction] at hdigits ⊢
      exact hdigits
    · rw [if_neg hfraction]
      exact (if_neg hfraction).trans hdigits

theorem head?_unsigned (h : WrittenAmount.IsProper w) : w.unsigned.head? ≠ some '-' := by
  obtain ⟨c, cs, hwhole⟩ := List.exists_cons_of_ne_nil h.whole_ne_nil
  have hc := h.isDigit c (List.mem_append_left _ (hwhole ▸ List.mem_cons_self))
  rw [WrittenAmount.unsigned, hwhole]
  rintro ⟨⟩
  cases hc

/-- A text is an amount just if it is written as one, and its number is that of all digits. -/
theorem parseAmount_eq_ok : parseAmount cs = .ok (i, p) ↔
    ∃ w : WrittenAmount, cs = w.chars ∧ w.IsProper ∧ i = w.value ∧ p = w.fraction.length := by
  constructor
  · intro h
    unfold parseAmount at h
    split at h
    · obtain ⟨w, hnegative, rfl, hw⟩ := parseUnsigned_eq_ok.mp h
      exact ⟨w, (if_pos hnegative).symm, hw⟩
    · obtain ⟨w, hnegative, rfl, hw⟩ := parseUnsigned_eq_ok.mp h
      refine ⟨w, ?_, hw⟩
      rw [WrittenAmount.chars, hnegative]
      rfl
  · rintro ⟨w, rfl, h, hi, hp⟩
    unfold parseAmount WrittenAmount.chars
    cases hnegative : w.negative with
    | true => exact parseUnsigned_eq_ok.mpr ⟨w, hnegative, rfl, h, hi, hp⟩
    | false =>
      simp only [Bool.false_eq_true, if_false]
      split
      · rename_i hunsigned
        exact absurd (congrArg List.head? hunsigned) (head?_unsigned h)
      · exact parseUnsigned_eq_ok.mpr ⟨w, hnegative, rfl, h, hi, hp⟩

end ChainKit.Asset
