import ChainKit.Proofs.Bytes.Bits
import ChainKit.Proofs.Wire.Varint

namespace ChainKit.Wire
set_option autoImplicit true

theorem toNat_shiftRight_seven (w : UInt32) : (w >>> 7).toNat = w.toNat / 128 := by
  rw [UInt32.toNat_shiftRight]
  exact Nat.shiftRight_eq_div_pow w.toNat 7

theorem shiftRight_seven_eq_zero {w : UInt32} : w >>> 7 = 0 ↔ w.toNat < 128 := by
  rw [← UInt32.toNat_inj, toNat_shiftRight_seven]
  change w.toNat / 128 = 0 ↔ w.toNat < 128
  omega

theorem toNat_lowGroup (w : UInt32) : (w &&& 0x7f).toUInt8.toNat = w.toNat % 128 := by
  have hand : (w &&& 0x7f).toNat = w.toNat % 128 := by
    rw [UInt32.toNat_and]
    exact Nat.and_two_pow_sub_one_eq_mod w.toNat 7
  rw [UInt32.toNat_toUInt8, hand]
  omega

/-- The groups of a word, each cut off by a mask and a shift. -/
def wordGroups (w : UInt32) : Bytes :=
  if w >>> 7 = 0 then [(w &&& 0x7f).toUInt8]
  else ((w &&& 0x7f).toUInt8 ||| 0x80) :: wordGroups (w >>> 7)
termination_by w.toNat
decreasing_by
  rename_i h
  rw [shiftRight_seven_eq_zero] at h
  rw [toNat_shiftRight_seven]
  omega

theorem wordGroups_of_lt (h : w.toNat < 128) : wordGroups w = [UInt8.ofNat w.toNat] := by
  have hlow : (w &&& 0x7f).toUInt8 = UInt8.ofNat w.toNat := by
    apply UInt8.toNat.inj
    rw [toNat_lowGroup, UInt8.toNat_ofNat']
    omega
  rw [wordGroups, if_pos (shiftRight_seven_eq_zero.mpr h), hlow]

theorem wordGroups_of_not_lt (h : ¬w.toNat < 128) :
    wordGroups w = UInt8.ofNat (w.toNat % 128 + 128) :: wordGroups (w >>> 7) := by
  have hlow : (w &&& 0x7f).toUInt8 ||| 0x80 = UInt8.ofNat (w.toNat % 128 + 128) := by
    have hlt : (w &&& 0x7f).toUInt8.toNat < 128 := by
      rw [toNat_lowGroup]
      exact Nat.mod_lt _ (by decide)
    apply UInt8.toNat.inj
    rw [Bytes.toNat_or_topBit hlt, toNat_lowGroup, UInt8.toNat_ofNat']
    omega
  rw [wordGroups, if_neg (mt shiftRight_seven_eq_zero.mp h), hlow]

theorem groups_toNat (h : w.toNat < 128 ^ (fuel + 1)) :
    groups (fuel + 1) w.toNat = wordGroups w := by
  induction fuel generalizing w with
  | zero =>
    have hlt : w.toNat < 128 := h
    rw [groups, if_pos hlt, wordGroups_of_lt hlt]
  | succ fuel ih =>
    rw [groups]
    split
    · rename_i hlt
      exact (wordGroups_of_lt hlt).symm
    · rename_i hlt
      have hhigh : (w >>> 7).toNat < 128 ^ (fuel + 1) := by
        rw [toNat_shiftRight_seven]
        rw [Nat.pow_succ] at h
        omega
      rw [wordGroups_of_not_lt hlt, ← ih hhigh, toNat_shiftRight_seven]

theorem varuint_toNat (w : UInt32) : varuint w.toNat = wordGroups w :=
  groups_toNat (Nat.lt_trans w.toNat_lt (by decide))

namespace Read

/-- Reads at most `left` groups into `word`, the next one as its group `i`. What a shift moves past
the top of a word is lost. -/
def wordGroups (start : Nat) : (left i : Nat) → UInt32 → Read UInt32
  | 0, _, _ => throw ⟨start, .overflow⟩
  | left + 1, i, word => do
    let b ← byte
    if left = 0 ∧ b &&& 0xf0 ≠ 0 then throw ⟨start, .overflow⟩
    let word := word ||| (b &&& 0x7f).toUInt32 <<< UInt32.ofNat (7 * i)
    if b &&& 0x80 = 0 then return word else wordGroups start left (i + 1) word

def word : Read UInt32 := do wordGroups (← position) maxGroups 0 0

theorem toNat_or_group {b : UInt8} (hw : w.toNat < 2 ^ (7 * i)) (hi : 7 * i < 32)
    (hfit : b.toNat % 128 * 2 ^ (7 * i) < 2 ^ 32) :
    (w ||| (b &&& 0x7f).toUInt32 <<< UInt32.ofNat (7 * i)).toNat =
      w.toNat + 2 ^ (7 * i) * (b.toNat % 128) := by
  have hshift : (UInt32.ofNat (7 * i)).toNat % 32 = 7 * i := by
    rw [UInt32.toNat_ofNat']
    omega
  have hor := Nat.two_pow_add_eq_or_of_lt hw (b.toNat % 128)
  rw [UInt32.toNat_or, UInt32.toNat_shiftLeft, UInt8.toNat_toUInt32, Bytes.toNat_lowBits, hshift,
    Nat.shiftLeft_eq, Nat.mod_eq_of_lt hfit, Nat.mul_comm, Nat.or_comm, ← hor, Nat.add_comm]

theorem wordGroups_succ (start left i : Nat) (w : UInt32) :
    wordGroups start (left + 1) i w = byte >>= fun b =>
      if left = 0 ∧ b &&& 0xf0 ≠ 0 then throw ⟨start, .overflow⟩
      else if b &&& 0x80 = 0 then pure (w ||| (b &&& 0x7f).toUInt32 <<< UInt32.ofNat (7 * i))
      else wordGroups start left (i + 1) (w ||| (b &&& 0x7f).toUInt32 <<< UInt32.ofNat (7 * i)) := by
  rw [wordGroups]
  congr 1

/-- Five groups, the last of them below 16, fit into a word. -/
theorem group_fits {b : UInt8} (hleft : left + 1 + i = maxGroups) (h : ¬(left = 0 ∧ 16 ≤ b)) :
    b.toNat % 128 * 2 ^ (7 * i) < 2 ^ 32 := by
  simp only [maxGroups] at hleft
  cases left with
  | zero =>
    have hb : ¬16 ≤ b.toNat := fun hle => h ⟨rfl, UInt8.le_iff_toNat_le.mpr hle⟩
    have hi : i = 4 := by omega
    rw [hi]
    omega
  | succ left =>
    have hpow : 2 ^ (7 * i) ≤ 2 ^ 21 := Nat.pow_le_pow_right (by decide) (by omega)
    have hgroup : b.toNat % 128 ≤ 127 := by omega
    exact Nat.lt_of_le_of_lt (Nat.mul_le_mul hgroup hpow) (by decide)

/-- Putting the groups together in a word gives the number that they are the groups of. -/
theorem groups_eq_wordGroups (hleft : left + i = maxGroups) (hw : w.toNat < 2 ^ (7 * i))
    (start : Nat) : groups start left w.toNat (2 ^ (7 * i)) =
      wordGroups start left i w >>= fun word => pure word.toNat := by
  induction left generalizing i w with
  | zero => rfl
  | succ left ih =>
    have hlast (b : UInt8) : (left = 0 ∧ b &&& 0xf0 ≠ 0) ↔ left = 0 ∧ 16 ≤ b := by
      rw [ne_eq, Bytes.highBits_eq_zero, UInt8.le_iff_toNat_le]
      exact and_congr_right fun _ => Nat.not_lt
    have hlow (b : UInt8) : b &&& 0x80 = 0 ↔ b < 128 := by
      rw [Bytes.topBit_eq_zero, UInt8.lt_iff_toNat_lt]
      exact Iff.rfl
    rw [groups_succ, wordGroups_succ, bind_assoc]
    congr 1
    funext b
    simp only [hlast, hlow]
    split
    · rfl
    · rename_i hfits
      have hi : 7 * i < 32 := by
        simp only [maxGroups] at hleft
        omega
      have hword := toNat_or_group hw hi (group_fits hleft hfits)
      rw [← hword]
      split
      · rfl
      · have hunit : 2 ^ (7 * (i + 1)) = 2 ^ (7 * i) * 128 := by
          rw [Nat.mul_add, Nat.pow_add]
        have hgroup : 2 ^ (7 * i) * (b.toNat % 128) ≤ 2 ^ (7 * i) * 127 :=
          Nat.mul_le_mul_left _ (by omega)
        rw [← hunit]
        apply ih
        · omega
        · rw [hword, hunit]
          omega

theorem varuint_eq_word : varuint = word >>= fun word => pure word.toNat := by
  have hzero : (0 : UInt32).toNat < 2 ^ (7 * 0) := by decide
  rw [varuint, word, bind_assoc]
  congr 1
  funext start
  exact groups_eq_wordGroups (Nat.add_zero maxGroups) hzero start

end Read

/-- A signed word folded onto a word by shifts of its bits. -/
def zigzag (i : Int32) : UInt32 := ((i <<< 1) ^^^ (i >>> 31)).toUInt32

def unzigzag (w : UInt32) : Int32 := (w >>> 1).toInt32 ^^^ -(w &&& 1).toInt32

theorem natCast_fold (i : Int) : (fold i : Int) = if i < 0 then -2 * i - 1 else 2 * i := by
  cases i with
  | ofNat n =>
    rw [fold, Int.ofNat_eq_natCast]
    omega
  | negSucc n =>
    rw [fold]
    omega

theorem unfold_eq (n : Nat) :
    unfold n = if n % 2 = 0 then (n : Int) / 2 else -((n : Int) / 2) - 1 := by
  rw [unfold]
  split
  · rw [Int.ofNat_eq_natCast]
    omega
  · omega

theorem sshiftRight_sign (x : BitVec 32) :
    x.sshiftRight 31 = if x.toInt < 0 then BitVec.allOnes 32 else 0#32 := by
  have hlow := x.le_toInt
  have hhigh := x.toInt_lt
  apply BitVec.eq_of_toInt_eq
  rw [BitVec.toInt_sshiftRight, Int.shiftRight_eq_div_pow]
  split
  · rw [BitVec.toInt_allOnes]
    simp only [Nat.zero_lt_succ, if_true]
    omega
  · rw [BitVec.toInt_zero]
    omega

theorem toNat_zigzag (i : Int32) : (zigzag i).toNat = fold i.toInt := by
  have hbits : (zigzag i).toNat = (i.toBitVec <<< 1 ^^^ i.toBitVec.sshiftRight 31).toNat := rfl
  have hint : i.toInt = i.toBitVec.toInt := rfl
  have hfold := natCast_fold i.toInt
  have hcond := i.toBitVec.toInt_eq_toNat_cond
  have hlt := i.toBitVec.isLt
  rw [hbits, sshiftRight_sign]
  split
  · rw [BitVec.xor_allOnes, BitVec.toNat_not, BitVec.toNat_shiftLeft, Nat.shiftLeft_eq]
    omega
  · rw [BitVec.xor_zero, BitVec.toNat_shiftLeft, Nat.shiftLeft_eq]
    omega

theorem toInt_unzigzag (w : UInt32) : (unzigzag w).toInt = unfold w.toNat := by
  have hbits : (unzigzag w).toInt = (w.toBitVec >>> 1 ^^^ -(w.toBitVec &&& 1#32)).toInt := rfl
  have hand : (w.toBitVec &&& 1#32).toNat = w.toNat % 2 := by
    rw [BitVec.toNat_and]
    exact Nat.and_two_pow_sub_one_eq_mod w.toNat 1
  have hshift : (w.toBitVec >>> 1).toNat = w.toNat / 2 := by
    rw [BitVec.toNat_ushiftRight]
    exact Nat.shiftRight_eq_div_pow w.toNat 1
  have hlt := w.toNat_lt
  rw [hbits, unfold_eq]
  split
  · rename_i heven
    have hzero : w.toBitVec &&& 1#32 = 0#32 := BitVec.eq_of_toNat_eq (hand.trans heven)
    rw [hzero, BitVec.neg_zero, BitVec.xor_zero, BitVec.toInt_eq_toNat_cond, hshift]
    omega
  · rename_i hodd
    have hone : w.toBitVec &&& 1#32 = 1#32 :=
      BitVec.eq_of_toNat_eq (hand.trans (Nat.mod_two_ne_zero.mp hodd))
    rw [hone, BitVec.neg_one_eq_allOnes, BitVec.xor_allOnes, BitVec.toInt_eq_toNat_cond,
      BitVec.toNat_not, hshift]
    omega

theorem varint_toInt (i : Int32) : varint i.toInt = wordGroups (zigzag i) := by
  rw [varint, ← toNat_zigzag, varuint_toNat]

theorem Read.varint_eq_word : Read.varint = Read.word >>= fun w => pure (unzigzag w).toInt := by
  rw [Read.varint, varuint_eq_word, bind_assoc]
  congr 1
  funext w
  rw [toInt_unzigzag]
  rfl

end ChainKit.Wire
