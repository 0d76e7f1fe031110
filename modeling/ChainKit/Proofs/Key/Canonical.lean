import ChainKit.Key.Signing
import ChainKit.Proofs.Bytes.Base58
import ChainKit.Proofs.Bytes.Bits

namespace ChainKit

namespace Bytes

theorem toNatBE_cons (b : UInt8) (bs : Bytes) :
    toNatBE (b :: bs) = b.toNat * 256 ^ bs.length + toNatBE bs := by
  rw [Bytes.toNatBE_eq_value, Bytes.toNatBE_eq_value, List.map_cons, Radix.value_cons,
    List.length_map]

theorem toNatBE_lt (bs : Bytes) : toNatBE bs < 256 ^ bs.length := by
  have hbytes : ∀ d ∈ bs.map UInt8.toNat, d < 256 := by
    intro d hd
    obtain ⟨b, -, rfl⟩ := List.mem_map.mp hd
    exact b.toNat_lt
  have hvalue := Radix.value_lt hbytes
  rwa [List.length_map, ← Bytes.toNatBE_eq_value] at hvalue

theorem toNatBE_div (b b' : UInt8) (rest : Bytes) :
    toNatBE (b :: b' :: rest) / 256 ^ rest.length = b.toNat * 256 + b'.toNat := by
  have hnumber : toNatBE (b :: b' :: rest) =
      toNatBE rest + (b.toNat * 256 + b'.toNat) * 256 ^ rest.length := by
    rw [toNatBE_cons, toNatBE_cons, List.length_cons, Nat.pow_succ', ← Nat.mul_assoc, Nat.add_mul]
    omega
  rw [hnumber, Nat.add_mul_div_right _ _ (Nat.pow_pos (by decide)),
    Nat.div_eq_of_lt (toNatBE_lt rest), Nat.zero_add]

end Bytes

namespace Signature
set_option autoImplicit true

/-- Whether a component begins as the test for canonical signatures asks: with a clear top bit, and
with no zero byte that is not needed for that. -/
def isTight (bs : Bytes) : Bool :=
  bs.getD 0 0 &&& 0x80 = 0 && !(bs.getD 0 0 = 0 && bs.getD 1 0 &&& 0x80 = 0)

theorem isTight_cons (b b' : UInt8) (rest : Bytes) :
    isTight (b :: b' :: rest) ↔ b.toNat < 128 ∧ ¬(b.toNat = 0 ∧ b'.toNat < 128) := by
  have hzero : b = 0 ↔ b.toNat = 0 := UInt8.toNat_inj.symm
  have htight : isTight (b :: b' :: rest) ↔ b &&& 0x80 = 0 ∧ ¬(b = 0 ∧ b' &&& 0x80 = 0) := by
    simp only [isTight, List.getD_cons_zero, List.getD_cons_succ, Bool.and_eq_true,
      decide_eq_true_eq, Bool.not_eq_true', ← Bool.not_eq_true]
  rw [htight, Bytes.topBit_eq_zero, Bytes.topBit_eq_zero, hzero]

/-- A component begins so just if its number leaves the top bit clear and is too great for one byte
less. -/
theorem isTight_iff (h : bs.length = n + 2) :
    isTight bs ↔ 128 * 256 ^ n ≤ Bytes.toNatBE bs ∧
      Bytes.toNatBE bs < 128 * 256 * 256 ^ n := by
  match bs, h with
  | b :: b' :: rest, h =>
    have hrest : rest.length = n := Nat.succ.inj (Nat.succ.inj h)
    have hunit : 0 < 256 ^ n := Nat.pow_pos (by decide)
    have hdiv := Bytes.toNatBE_div b b' rest
    have hb' := b'.toNat_lt
    rw [hrest] at hdiv
    rw [isTight_cons, ← Nat.le_div_iff_mul_le hunit, ← Nat.div_lt_iff_lt_mul hunit, hdiv]
    omega

theorem isCanonical_eq (sig : Signature) : sig.isCanonical =
    (isTight ((sig.data.bytes.drop 1).take 32) && isTight (sig.data.bytes.drop 33)) := by
  simp [isCanonical, isTight, List.getD_eq_getElem?_getD]

/-- A signature is canonical just if both components are at least `2 ^ 247` and below `2 ^ 255`. -/
theorem isCanonical_iff (sig : Signature) : sig.isCanonical ↔
    (2 ^ 247 ≤ sig.r ∧ sig.r < 2 ^ 255) ∧ (2 ^ 247 ≤ sig.s ∧ sig.s < 2 ^ 255) := by
  have hlength := sig.data.length_eq
  have hr : ((sig.data.bytes.drop 1).take 32).length = 30 + 2 := by
    rw [List.length_take, List.length_drop, hlength]
    rfl
  have hs : (sig.data.bytes.drop 33).length = 30 + 2 := by
    rw [List.length_drop, hlength]
  rw [isCanonical_eq, Bool.and_eq_true, isTight_iff hr, isTight_iff hs]
  exact Iff.rfl

end Signature

namespace PrivateKey
set_option autoImplicit true

/-- Whether an attempt gives a signature that is not canonical. -/
def IsPassedOver (sig? : Option Signature) : Prop :=
  ∃ sig, sig? = some sig ∧ sig.isCanonical = false

/-- Whether attempt `n` gives a canonical signature, behind others that are passed over. -/
structure IsFirstCanonical (attempt? : Nat → Option Signature) (n : Nat) (sig : Signature) :
    Prop where
  found : attempt? n = some sig
  canonical : sig.isCanonical
  before : ∀ j < n, IsPassedOver (attempt? j)

variable {attempt? : Nat → Option Signature}

theorem IsFirstCanonical.le (h : IsFirstCanonical attempt? n sig)
    (hbefore : ∀ j < i, IsPassedOver (attempt? j)) : i ≤ n := by
  apply Nat.le_of_not_lt
  intro hn
  obtain ⟨other, hother, hnot⟩ := hbefore n hn
  cases h.found.symm.trans hother
  cases h.canonical.symm.trans hnot

theorem IsFirstCanonical.eq (h : IsFirstCanonical attempt? n sig)
    (hbefore : ∀ j < i, IsPassedOver (attempt? j)) (hi : ¬IsPassedOver (attempt? i)) : n = i := by
  apply Nat.le_antisymm
  · exact Nat.le_of_not_lt fun hn => hi (h.before i hn)
  · exact h.le hbefore

/-- The search goes on from attempts that are passed over, and ends with the first canonical
signature among the attempts that are left. -/
theorem firstCanonical_eq_ok (hbefore : ∀ j < i, IsPassedOver (attempt? j)) :
    firstCanonical attempt? i left = .ok sig ↔ ∃ n < i + left, IsFirstCanonical attempt? n sig := by
  induction left generalizing i with
  | zero =>
    constructor
    · intro h
      cases h
    · rintro ⟨n, hn, h⟩
      exact absurd (h.le hbefore) (Nat.not_le_of_lt hn)
  | succ left ih =>
    rw [firstCanonical]
    cases hfirst : attempt? i with
    | none =>
      constructor
      · intro h
        cases h
      · rintro ⟨n, -, h⟩
        have hn := h.eq hbefore fun ⟨_, hsome, _⟩ => nomatch hfirst.symm.trans hsome
        cases (hn ▸ h.found).symm.trans hfirst
    | some found =>
      cases hcanonical : found.isCanonical with
      | true =>
        have hfound : IsFirstCanonical attempt? i found := ⟨hfirst, hcanonical, hbefore⟩
        simp only [hcanonical, if_true, Except.ok.injEq]
        constructor
        · rintro rfl
          exact ⟨i, by omega, hfound⟩
        · rintro ⟨n, -, h⟩
          have hn := Nat.le_antisymm (hfound.le h.before) (h.le hbefore)
          exact Option.some.inj (hfirst.symm.trans (hn ▸ h.found))
      | false =>
        have hpassed : ∀ j < i + 1, IsPassedOver (attempt? j) := by
          intro j hj
          rcases Nat.eq_or_lt_of_le (Nat.le_of_lt_succ hj) with rfl | hj
          · exact ⟨found, hfirst, hcanonical⟩
          · exact hbefore j hj
        simp only [hcanonical, Bool.false_eq_true, if_false]
        rw [ih hpassed, Nat.add_right_comm, Nat.add_assoc]

theorem sign_eq_ok {k : PrivateKey} : k.sign digest entropy = .ok sig ↔
    ∃ secret, k.scalar? = some secret ∧
      ∃ n < maxAttempts, IsFirstCanonical (k.attempt? secret digest entropy) n sig := by
  rw [sign]
  cases k.scalar? with
  | none =>
    constructor
    · intro h
      cases h
    · rintro ⟨_, h, _⟩
      cases h
  | some secret =>
    have hbefore : ∀ j < 0, IsPassedOver (k.attempt? secret digest entropy j) :=
      fun j hj => absurd hj (Nat.not_lt_zero j)
    simp only [firstCanonical_eq_ok hbefore, Nat.zero_add, Option.some.injEq, exists_eq_left']

end PrivateKey
end ChainKit
