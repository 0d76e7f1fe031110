import ChainKit.Proofs.Wire.Reading
import ChainKit.Wire.Varint

namespace ChainKit.Wire
set_option autoImplicit true

/-- Bytes that are a variable-length form of a number, the shortest one or not. -/
inductive Grouped : Bytes → Nat → Prop where
  | last : b < 128 → Grouped [b] b.toNat
  | more : ¬b < 128 → Grouped bs n → Grouped (b :: bs) (b.toNat % 128 + 128 * n)

theorem Grouped.ne_nil (h : Grouped bs n) : bs ≠ [] := by
  cases h <;> exact List.cons_ne_nil _ _

theorem toNat_lt_of_lt {b : UInt8} (h : b < 128) : b.toNat < 128 := UInt8.lt_iff_toNat_lt.mp h

theorem le_toNat_of_not_lt {b : UInt8} (h : ¬b < 128) : 128 ≤ b.toNat := by
  have h' : ¬b.toNat < 128 := fun hlt => h (UInt8.lt_iff_toNat_lt.mpr hlt)
  omega

theorem grouped_last (h : n < 128) : Grouped [UInt8.ofNat n] n := by
  have hb : (UInt8.ofNat n).toNat = n := by
    rw [UInt8.toNat_ofNat']
    omega
  have hlast : UInt8.ofNat n < 128 := UInt8.lt_iff_toNat_lt.mpr (by rw [hb]; exact h)
  have hg := Grouped.last hlast
  rwa [hb] at hg

theorem grouped_groups (h : n < 128 ^ (fuel + 1)) : Grouped (groups (fuel + 1) n) n := by
  induction fuel generalizing n with
  | zero =>
    have hn : n < 128 := h
    rw [groups, if_pos hn]
    exact grouped_last hn
  | succ fuel ih =>
    rw [groups]
    split
    · exact grouped_last ‹_›
    · rename_i hn
      have hb : (UInt8.ofNat (n % 128 + 128)).toNat = n % 128 + 128 := by
        rw [UInt8.toNat_ofNat']
        omega
      have hmore : ¬UInt8.ofNat (n % 128 + 128) < 128 := by
        intro hlt
        have := toNat_lt_of_lt hlt
        omega
      have hdiv : n / 128 < 128 ^ (fuel + 1) := by
        rw [Nat.pow_succ] at h
        exact Nat.div_lt_of_lt_mul (by omega)
      have hg := Grouped.more hmore (ih hdiv)
      have he : (n % 128 + 128) % 128 + 128 * (n / 128) = n := by omega
      rwa [hb, he] at hg

theorem Grouped.eq_or_shorter (h : Grouped bs n) (hlen : bs.length ≤ fuel) :
    groups fuel n = bs ∨ (groups fuel n).length < bs.length := by
  induction h generalizing fuel with
  | @last b hb =>
    obtain ⟨fuel, rfl⟩ := Nat.exists_eq_add_of_le' hlen
    left
    have hn := toNat_lt_of_lt hb
    rw [List.length_singleton, groups, if_pos hn, UInt8.ofNat_toNat]
  | @more b bs n hb h ih =>
    obtain ⟨fuel, rfl⟩ := Nat.exists_eq_add_one.mpr (Nat.zero_lt_of_lt hlen)
    have hb' := le_toNat_of_not_lt hb
    have hlt := b.toNat_lt
    have hpos := List.length_pos_iff.mpr h.ne_nil
    rw [groups]
    split
    · right
      simp only [List.length_cons, List.length_nil]
      omega
    · have hlow : UInt8.ofNat ((b.toNat % 128 + 128 * n) % 128 + 128) = b := by
        apply UInt8.toNat.inj
        rw [UInt8.toNat_ofNat']
        omega
      have hhigh : (b.toNat % 128 + 128 * n) / 128 = n := by omega
      rw [hlow, hhigh]
      rcases ih (Nat.le_of_succ_le_succ hlen) with he | hs
      · left
        rw [he]
      · right
        simp only [List.length_cons]
        omega

namespace Read

theorem groups_succ (start left value unit : Nat) :
    groups start (left + 1) value unit = byte >>= fun b =>
      if left = 0 ∧ 16 ≤ b then throw ⟨start, .overflow⟩
      else if b < 128 then pure (value + unit * (b.toNat % 128))
      else groups start left (value + unit * (b.toNat % 128)) (unit * 128) := by
  rw [groups]
  congr 1

theorem reads_groups (h : Grouped bs n) (hlen : bs.length ≤ left) (hn : n < 16 * 128 ^ (left - 1))
    (start value unit : Nat) (rest : Bytes) :
    Reads (groups start left value unit) bs (value + unit * n) rest := by
  induction h generalizing left value unit with
  | @last b hb =>
    obtain ⟨left, rfl⟩ := Nat.exists_eq_add_one.mpr hlen
    have hlast : ¬(left = 0 ∧ 16 ≤ b) := by
      rintro ⟨rfl, hle⟩
      have hle := UInt8.le_iff_toNat_le.mp hle
      change 16 ≤ b.toNat at hle
      simp at hn
      omega
    have hmod : b.toNat % 128 = b.toNat := Nat.mod_eq_of_lt (toNat_lt_of_lt hb)
    rw [groups_succ]
    refine Reads.check (reads_byte b _) ?_
    simp only [if_neg hlast, if_pos hb, hmod]
    exact Reads.pure _ _
  | @more b bs n hb h ih =>
    have hpos := List.length_pos_iff.mpr h.ne_nil
    have htwo : 2 ≤ left := Nat.le_trans (Nat.succ_le_succ hpos) hlen
    obtain ⟨left, rfl⟩ := Nat.exists_eq_add_of_le' htwo
    have hlast : ¬(left + 1 = 0 ∧ 16 ≤ b) := fun h => Nat.succ_ne_zero left h.1
    rw [groups_succ]
    refine Reads.bind (reads_byte b _) ?_
    simp only [if_neg hlast, if_neg hb]
    have hbound : n < 16 * 128 ^ (left + 1 - 1) := by
      simp only [Nat.add_sub_cancel]
      have : left + 2 - 1 = left + 1 := rfl
      rw [this, Nat.pow_succ] at hn
      omega
    have hr := ih (Nat.le_of_succ_le_succ hlen) hbound (value + unit * (b.toNat % 128)) (unit * 128)
    have he : value + unit * (b.toNat % 128) + unit * 128 * n =
        value + unit * (b.toNat % 128 + 128 * n) := by
      rw [Nat.mul_add, Nat.mul_assoc, Nat.add_assoc]
    rwa [he] at hr

theorem takes_groups (start left value unit : Nat) :
    Takes (groups start left value unit) fun used v =>
      ∃ n, Grouped used n ∧ used.length ≤ left ∧ n < 16 * 128 ^ (left - 1) ∧ v = value + unit * n := by
  induction left generalizing value unit with
  | zero => exact Takes.throw _
  | succ left ih =>
    rw [groups_succ]
    refine takes_byte.bind ?_
    rintro used b rfl
    have hlt := b.toNat_lt
    have hpow : 0 < 128 ^ left := Nat.pow_pos (by decide)
    split
    · exact Takes.throw _
    · rename_i hlast
      split
      · rename_i hb
        have hb' := toNat_lt_of_lt hb
        refine Takes.pure ⟨b.toNat, .last hb, Nat.le_add_left _ _, ?_, ?_⟩
        · rw [Nat.add_sub_cancel]
          cases left with
          | zero =>
            have : ¬16 ≤ b.toNat := fun hle => hlast ⟨rfl, UInt8.le_iff_toNat_le.mpr hle⟩
            simp only [Nat.pow_zero]
            omega
          | succ left =>
            rw [Nat.pow_succ] at hpow ⊢
            omega
        · rw [Nat.mod_eq_of_lt hb']
      · rename_i hb
        refine (ih _ _).mono ?_
        rintro used v ⟨n, hg, hlen, hn, rfl⟩
        refine ⟨_, .more hb hg, Nat.succ_le_succ hlen, ?_, ?_⟩
        · have hpos := List.length_pos_iff.mpr hg.ne_nil
          obtain ⟨left, rfl⟩ := Nat.exists_eq_add_one.mpr (Nat.lt_of_lt_of_le hpos hlen)
          simp only [Nat.add_sub_cancel, Nat.pow_succ] at hn ⊢
          omega
        · rw [Nat.mul_add, Nat.mul_assoc, Nat.add_assoc]

end Read

/-- Bytes that are accepted as a number. -/
structure Spells (bs : Bytes) (n : Nat) : Prop where
  grouped : Grouped bs n
  length_le : bs.length ≤ maxGroups
  lt : n < 2 ^ 32

theorem length_groups_le (fuel n : Nat) : (groups fuel n).length ≤ fuel := by
  induction fuel generalizing n with
  | zero => exact Nat.le_refl 0
  | succ fuel ih =>
    rw [groups]
    split
    · exact Nat.succ_le_succ (Nat.zero_le _)
    · exact Nat.succ_le_succ (ih _)

theorem varuint_ne_nil (n : Nat) : varuint n ≠ [] := by
  rw [varuint, maxGroups, groups]
  split <;> exact List.cons_ne_nil _ _

theorem spells_varuint (h : n < 2 ^ 32) : Spells (varuint n) n where
  grouped := grouped_groups (Nat.lt_trans h (by decide))
  length_le := length_groups_le maxGroups n
  lt := h

theorem Spells.eq_or_shorter (h : Spells bs n) :
    varuint n = bs ∨ (varuint n).length < bs.length :=
  h.grouped.eq_or_shorter h.length_le

theorem fold_lt_iff (i : Int) : fold i < 2 ^ 32 ↔ -(2 ^ 31) ≤ i ∧ i < 2 ^ 31 := by
  cases i with
  | ofNat n =>
    rw [fold, Int.ofNat_eq_natCast]
    omega
  | negSucc n =>
    rw [fold]
    omega

namespace Read

theorem reads_spells (h : Spells bs n) (rest : Bytes) : Reads varuint bs n rest := by
  refine Reads.position fun start => ?_
  have hr := reads_groups h.grouped h.length_le h.lt start 0 1 rest
  rwa [Nat.zero_add, Nat.one_mul] at hr

theorem reads_varuint (h : n < 2 ^ 32) (rest : Bytes) : Reads varuint (Wire.varuint n) n rest :=
  reads_spells (spells_varuint h) rest

theorem takes_varuint : Takes varuint Spells := by
  refine Takes.position fun start => (takes_groups start maxGroups 0 1).mono ?_
  rintro used v ⟨n, hg, hlen, hn, rfl⟩
  rw [Nat.zero_add, Nat.one_mul]
  exact ⟨hg, hlen, hn⟩

theorem reads_varint (h : fold i < 2 ^ 32) (rest : Bytes) :
    Reads varint (Wire.varint i) i rest := by
  have hr := (reads_varuint h rest).map (f := unfold)
  rwa [unfold_fold] at hr

theorem takes_varint : Takes varint fun used i => Spells used (fold i) := by
  refine takes_varuint.map fun used n h => ?_
  rwa [fold_unfold]

theorem reads_lengthPrefixed (h : bs.length < 2 ^ 32) (rest : Bytes) :
    Reads lengthPrefixed (Wire.lengthPrefixed bs) bs rest :=
  (reads_varuint h _).bind (reads_bytes bs rest)

theorem takes_lengthPrefixed : Takes lengthPrefixed fun used bs =>
    ∃ length, used = length ++ bs ∧ Spells length bs.length := by
  refine takes_varuint.bind fun length n h => (takes_bytes n).mono ?_
  rintro used bs ⟨rfl, rfl⟩
  exact ⟨length, rfl, h⟩

end Read

theorem eq_or_shorter_append {as as' bs bs' : Bytes} (ha : as' = as ∨ as'.length < as.length)
    (hb : bs' = bs ∨ bs'.length < bs.length) :
    as' ++ bs' = as ++ bs ∨ (as' ++ bs').length < (as ++ bs).length := by
  rw [List.length_append, List.length_append]
  rcases ha with rfl | ha
  · rcases hb with rfl | hb
    · exact .inl rfl
    · exact .inr (Nat.add_lt_add_left hb _)
  · right
    rcases hb with rfl | hb
    · exact Nat.add_lt_add_right ha _
    · exact Nat.add_lt_add ha hb

end ChainKit.Wire
