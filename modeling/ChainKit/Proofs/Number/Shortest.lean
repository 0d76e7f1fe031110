import ChainKit.Number.Shortest
import ChainKit.Proofs.Text.Decimal

namespace ChainKit

namespace Ratio

structure IsPositive (a : Ratio) : Prop where
  num : 0 < a.num
  den : 0 < a.den

variable {a : Ratio} {e e' : Int}

theorem le_scaled_iff :
    le (scaled 1 e) a = true ↔ 10 ^ e.toNat * a.den ≤ a.num * 10 ^ (-e).toNat := by
  rw [le, scaled, decide_eq_true_iff, Nat.one_mul]

theorem le_scaled_floorLog10 (h : a.IsPositive) : le (scaled 1 a.floorLog10) a = true := by
  simp only [floorLog10]
  split
  · assumption
  · have hnum := Decimal.pow_le_of_pos h.num
    have hden := Nat.le_of_lt (Decimal.lt_pow_length a.den)
    have hlength : 0 < (Decimal.ofNat a.num).length := Nat.length_toDigits_pos
    change le (scaled 1 ((Decimal.ofNat a.num).length - (Decimal.ofNat a.den).length - 1)) a
    generalize (Decimal.ofNat a.num).length = p at *
    generalize (Decimal.ofNat a.den).length = q at *
    -- `10 ^ (p - 1) ≤ a.num` and `a.den < 10 ^ q`
    have hpower : ((p : Int) - q - 1).toNat + q = p - 1 + (-((p : Int) - q - 1)).toNat := by omega
    rw [le_scaled_iff]
    calc 10 ^ ((p : Int) - q - 1).toNat * a.den
        ≤ 10 ^ ((p : Int) - q - 1).toNat * 10 ^ q := Nat.mul_le_mul_left _ hden
      _ = 10 ^ (p - 1) * 10 ^ (-((p : Int) - q - 1)).toNat := by
        rw [← Nat.pow_add, hpower, Nat.pow_add]
      _ ≤ a.num * 10 ^ (-((p : Int) - q - 1)).toNat := Nat.mul_le_mul_right _ hnum

theorem le_scaled_of_le (he : e' ≤ e) (h : le (scaled 1 e) a = true) :
    le (scaled 1 e') a = true := by
  rw [le_scaled_iff] at h ⊢
  calc 10 ^ e'.toNat * a.den
      ≤ 10 ^ e.toNat * a.den := by
        apply Nat.mul_le_mul_right
        exact Nat.pow_le_pow_right (by decide) (by omega)
    _ ≤ a.num * 10 ^ (-e).toNat := h
    _ ≤ a.num * 10 ^ (-e').toNat := by
        apply Nat.mul_le_mul_left
        exact Nat.pow_le_pow_right (by decide) (by omega)

theorem floor_pos (h : a.IsPositive) (he : le (scaled 1 e) a = true) :
    0 < (a.div (scaled 1 e)).floor := by
  rw [le_scaled_iff] at he
  simp only [floor, div, scaled, Nat.one_mul]
  apply Nat.div_pos
  · rwa [Nat.mul_comm a.den]
  · exact Nat.mul_pos h.den (Nat.pow_pos (by decide))

end Ratio

theorem Numeral.trimZeros_pos {d : Numeral} (h : 0 < d.digits) (fuel : Nat) :
    0 < (d.trimZeros fuel).digits := by
  induction fuel generalizing d with
  | zero => exact h
  | succ fuel ih =>
    rw [trimZeros]
    split
    · apply ih
      change 0 < d.digits / 10
      omega
    · exact h

namespace BinaryFormat

variable {f : BinaryFormat} {tie : Tie} {bits : Nat} {e : Int} {d : Numeral}

theorem isPositive_ratio (h : bits ≠ 0) : (f.ratio bits).IsPositive := by
  constructor
  · have hparts : 0 < (f.parts bits).1 := by
      have hsplit := Nat.div_add_mod bits (2 ^ (f.precision - 1))
      simp only [parts]
      split
      · rename_i hzero
        rw [hzero, Nat.mul_zero, Nat.zero_add] at hsplit
        omega
      · exact Nat.add_pos_right _ (Nat.pow_pos (by decide))
    exact Nat.mul_pos hparts (Nat.pow_pos (by decide))
  · exact Nat.pow_pos (by decide)

theorem digits_onGrid?_pos (hfloor : 0 < ((f.ratio bits).div (.scaled 1 e)).floor)
    (h : f.onGrid? tie bits e = some d) : 0 < d.digits := by
  simp only [onGrid?] at h
  split at h
  · cases h
    split
    · exact hfloor
    · exact Nat.succ_pos _
  · cases h
    exact hfloor
  · cases h
    exact Nat.succ_pos _
  · cases h

theorem digits_search_pos (hbits : bits ≠ 0) (fuel : Nat)
    (he : Ratio.le (.scaled 1 e) (f.ratio bits) = true) :
    0 < (f.search tie bits fuel e).digits := by
  induction fuel generalizing e with
  | zero => exact Ratio.floor_pos (isPositive_ratio hbits) he
  | succ fuel ih =>
    rw [search]
    cases hgrid : f.onGrid? tie bits e with
    | none => exact ih (Ratio.le_scaled_of_le (by omega) he)
    | some d => exact digits_onGrid?_pos (Ratio.floor_pos (isPositive_ratio hbits) he) hgrid

theorem digits_shortest_pos (h : bits ≠ 0) : 0 < (f.shortest tie bits).digits := by
  rw [shortest, if_neg h]
  apply Numeral.trimZeros_pos
  exact digits_search_pos h 17 (Ratio.le_scaled_floorLog10 (isPositive_ratio h))

end BinaryFormat
end ChainKit
