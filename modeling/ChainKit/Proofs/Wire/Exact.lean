import ChainKit.Proofs.Wire.Words

namespace ChainKit.Wire
set_option autoImplicit true

/-- Whether the byte at a place is the last one of at most `left` groups: the first byte with its
high bit clear, and below 16 if no group may follow. -/
structure EndsAt (left : Nat) (bs : Bytes) (k : Nat) : Prop where
  lt : k < left
  first : ∀ j b, j < k → bs[j]? = some b → ¬b < 128
  last : ∃ b, bs[k]? = some b ∧ b < 128 ∧ (k + 1 = left → b < 16)

/-- The sum of the low seven bits of each byte, shifted into their place; the first byte has
group `i`. -/
def shiftedSum : (i : Nat) → Bytes → Nat
  | _, [] => 0
  | i, b :: bs => (b.toNat % 128) <<< (7 * i) + shiftedSum (i + 1) bs

theorem shiftedSum_cons (i : Nat) (b : UInt8) (bs : Bytes) :
    shiftedSum i (b :: bs) = 2 ^ (7 * i) * (b.toNat % 128) + shiftedSum (i + 1) bs := by
  rw [shiftedSum, Nat.shiftLeft_eq, Nat.mul_comm]

theorem not_endsAt_nil (left k : Nat) : ¬EndsAt left [] k := by
  rintro ⟨-, -, b, hb, -⟩
  cases hb

theorem endsAt_of_lt {b : UInt8} (h : b < 128) :
    EndsAt (left + 1) (b :: bs) k ↔ k = 0 ∧ ¬(left = 0 ∧ 16 ≤ b) := by
  constructor
  · intro hends
    cases k with
    | zero =>
      obtain ⟨c, hc, -, hfits⟩ := hends.last
      cases hc
      refine ⟨rfl, ?_⟩
      rintro ⟨rfl, hle⟩
      exact UInt8.not_le.mpr (hfits rfl) hle
    | succ k => exact absurd h (hends.first 0 b (Nat.succ_pos k) rfl)
  · rintro ⟨rfl, hfits⟩
    refine ⟨Nat.succ_pos left, nofun, b, rfl, h, ?_⟩
    intro hleft
    exact UInt8.not_le.mp fun hle => hfits ⟨(Nat.succ.inj hleft).symm, hle⟩

theorem endsAt_of_not_lt {b : UInt8} (h : ¬b < 128) :
    EndsAt (left + 1) (b :: bs) k ↔ ∃ j, k = j + 1 ∧ EndsAt left bs j := by
  constructor
  · intro hends
    obtain ⟨c, hc, hlt, hfits⟩ := hends.last
    cases k with
    | zero =>
      cases hc
      exact absurd hlt h
    | succ k =>
      refine ⟨k, rfl, Nat.lt_of_succ_lt_succ hends.lt, ?_, c, hc, hlt, ?_⟩
      · intro j d hj hd
        exact hends.first (j + 1) d (Nat.succ_lt_succ hj) hd
      · intro hleft
        exact hfits (congrArg Nat.succ hleft)
  · rintro ⟨j, rfl, hends⟩
    obtain ⟨c, hc, hlt, hfits⟩ := hends.last
    refine ⟨Nat.succ_lt_succ hends.lt, ?_, c, hc, hlt, fun hleft => hfits (Nat.succ.inj hleft)⟩
    intro i d hi hd
    cases i with
    | zero =>
      cases hd
      exact h
    | succ i => exact hends.first i d (Nat.lt_of_succ_lt_succ hi) hd

theorem not_endsAt_one {b : UInt8} (h : 16 ≤ b) : ¬EndsAt 1 (b :: bs) k := by
  intro hends
  by_cases hlow : b < 128
  · exact ((endsAt_of_lt hlow).mp hends).2 ⟨rfl, h⟩
  · obtain ⟨j, -, hends⟩ := (endsAt_of_not_lt hlow).mp hends
    exact Nat.not_lt_zero j hends.lt

namespace Read

theorem byte_nil (p : Nat) : byte ⟨p, []⟩ = .error ⟨p, .endOfData 1 0⟩ ⟨p, []⟩ := rfl

theorem byte_cons (p : Nat) (b : UInt8) (bs : Bytes) : byte ⟨p, b :: bs⟩ = .ok b ⟨p + 1, bs⟩ :=
  reads_byte b bs p

theorem groups_cons (start left value unit p : Nat) (b : UInt8) (bs : Bytes) :
    groups start (left + 1) value unit ⟨p, b :: bs⟩ =
      if left = 0 ∧ 16 ≤ b then .error ⟨start, .overflow⟩ ⟨p + 1, bs⟩
      else if b < 128 then .ok (value + unit * (b.toNat % 128)) ⟨p + 1, bs⟩
      else groups start left (value + unit * (b.toNat % 128)) (unit * 128) ⟨p + 1, bs⟩ := by
  rw [groups_succ, bind_ok (byte_cons p b bs)]
  split
  · rfl
  · split
    · rfl
    · rfl

theorem advance_cons (p : Nat) (b : UInt8) (bs : Bytes) (n : Nat) :
    (Reader.mk p (b :: bs)).advance (n + 1) = (Reader.mk (p + 1) bs).advance n := by
  rw [Reader.advance, Reader.advance, List.drop_succ_cons, Nat.add_right_comm, Nat.add_assoc]

/-- Groups are read just if one of them is the last. -/
theorem groups_eq_ok : groups start left value (2 ^ (7 * i)) r = .ok n r' ↔
    ∃ k, EndsAt left r.rest k ∧ n = value + shiftedSum i (r.rest.take (k + 1)) ∧
      r' = r.advance (k + 1) := by
  induction left generalizing i value r with
  | zero =>
    constructor
    · rintro ⟨⟩
    · rintro ⟨k, hends, -⟩
      exact absurd hends.lt (Nat.not_lt_zero k)
  | succ left ih =>
    obtain ⟨p, bs⟩ := r
    cases bs with
    | nil =>
      rw [groups_succ, bind_error (byte_nil p)]
      constructor
      · rintro ⟨⟩
      · rintro ⟨k, hends, -⟩
        exact absurd hends (not_endsAt_nil _ k)
    | cons b bs =>
      have hunit : 2 ^ (7 * i) * 128 = 2 ^ (7 * (i + 1)) := by
        rw [Nat.mul_add, Nat.pow_add]
      have hsum (k : Nat) : shiftedSum i ((b :: bs).take (k + 1)) =
          2 ^ (7 * i) * (b.toNat % 128) + shiftedSum (i + 1) (bs.take k) := shiftedSum_cons i b _
      rw [groups_cons, hunit]
      -- The last group that may stand here has four bits only.
      by_cases hlast : left = 0 ∧ 16 ≤ b
      · rw [if_pos hlast]
        obtain ⟨rfl, hfifth⟩ := hlast
        constructor
        · rintro ⟨⟩
        · rintro ⟨k, hends, -⟩
          exact absurd hends (not_endsAt_one hfifth)
      · rw [if_neg hlast]
        by_cases hlow : b < 128
        · rw [if_pos hlow]
          constructor
          · rintro ⟨⟩
            refine ⟨0, (endsAt_of_lt hlow).mpr ⟨rfl, hlast⟩, ?_, rfl⟩
            rw [hsum]
            rfl
          · rintro ⟨k, hends, rfl, rfl⟩
            obtain ⟨rfl, -⟩ := (endsAt_of_lt hlow).mp hends
            rw [hsum]
            rfl
        · rw [if_neg hlow, ih]
          constructor
          · rintro ⟨k, hends, rfl, rfl⟩
            refine ⟨k + 1, (endsAt_of_not_lt hlow).mpr ⟨k, rfl, hends⟩, ?_, ?_⟩
            · rw [hsum, Nat.add_assoc]
            · rw [advance_cons]
          · rintro ⟨k, hends, rfl, rfl⟩
            obtain ⟨j, rfl, hends'⟩ := (endsAt_of_not_lt hlow).mp hends
            refine ⟨j, hends', ?_, ?_⟩
            · rw [hsum, Nat.add_assoc]
            · rw [advance_cons]

theorem varuint_eq_ok : varuint r = .ok n r' ↔
    ∃ k, EndsAt maxGroups r.rest k ∧ n = shiftedSum 0 (r.rest.take (k + 1)) ∧
      r' = r.advance (k + 1) := by
  have h : groups r.position maxGroups 0 (2 ^ (7 * 0)) r = .ok n r' ↔ _ := groups_eq_ok
  simp only [Nat.zero_add] at h
  exact h

end Read

theorem EndsAt.spells (h : EndsAt maxGroups bs k) :
    Spells (bs.take (k + 1)) (shiftedSum 0 (bs.take (k + 1))) := by
  have hread := (Read.varuint_eq_ok (r := ⟨0, bs⟩)).mpr ⟨k, h, rfl, rfl⟩
  obtain ⟨used, hused, hspells⟩ := Read.takes_varuint _ _ _ hread
  have hbs : bs.take (k + 1) ++ bs.drop (k + 1) = used ++ bs.drop (k + 1) :=
    (List.take_append_drop _ bs).trans hused
  rw [← List.append_cancel_right hbs] at hspells
  exact hspells

/-- Variable-length integers are exact. What is written for a word is read back, whatever is behind
it. Bytes are read just if one of the first five is the last of a number, as the sum of their
groups, which fits into a word and loses nothing when it is put together in one, and never from
fewer bytes than are written for it. What is written for a signed word is read back too. -/
theorem varuint_exact :
    (∀ w : UInt32, varuint w.toNat = wordGroups w ∧
      ∀ rest, Reads Read.varuint (varuint w.toNat) w.toNat rest) ∧
    (∀ r, (∃ n r', Read.varuint r = .ok n r') ↔ ∃ k, EndsAt maxGroups r.rest k) ∧
    (∀ r k, EndsAt maxGroups r.rest k →
      let n := shiftedSum 0 (r.rest.take (k + 1))
      Read.varuint r = .ok n (r.advance (k + 1)) ∧ n < 2 ^ 32 ∧ (varuint n).length ≤ k + 1) ∧
    (Read.varuint = do return (← Read.word).toNat) ∧
    (∀ i : Int32, varint i.toInt = wordGroups (zigzag i) ∧
      ∀ rest, Reads Read.varint (varint i.toInt) i.toInt rest) ∧
    (Read.varint = do return (unzigzag (← Read.word)).toInt) := by
  refine ⟨?_, ?_, ?_, Read.varuint_eq_word, ?_, Read.varint_eq_word⟩
  · intro w
    exact ⟨varuint_toNat w, Read.reads_varuint w.toNat_lt⟩
  · intro r
    constructor
    · rintro ⟨n, r', h⟩
      obtain ⟨k, hends, -⟩ := Read.varuint_eq_ok.mp h
      exact ⟨k, hends⟩
    · rintro ⟨k, hends⟩
      exact ⟨_, _, Read.varuint_eq_ok.mpr ⟨k, hends, rfl, rfl⟩⟩
  · intro r k hends
    have hspells := hends.spells
    refine ⟨Read.varuint_eq_ok.mpr ⟨k, hends, rfl, rfl⟩, hspells.lt, ?_⟩
    have hlength : (r.rest.take (k + 1)).length ≤ k + 1 := List.length_take_le _ _
    rcases hspells.eq_or_shorter with heq | hlt
    · rwa [heq]
    · exact Nat.le_of_lt (Nat.lt_of_lt_of_le hlt hlength)
  · intro i
    have hfold : fold i.toInt < 2 ^ 32 := by
      rw [← toNat_zigzag]
      exact (zigzag i).toNat_lt
    exact ⟨varint_toInt i, Read.reads_varint hfold⟩

theorem varuint_exact_overlong :
    EndsAt maxGroups [0x85, 0x80, 0x00, 0x09] 2 ∧
    Read.varuint (.ofBytes [0x85, 0x80, 0x00, 0x09]) = .ok 5 ⟨3, [0x09]⟩ ∧
    (varuint 5).length ≤ 3 := by
  have hfirst : ∀ j b, j < 2 → ([0x85, 0x80, 0x00, 0x09] : Bytes)[j]? = some b → ¬b < 128 := by
    intro j b hj hb
    match j, hj with
    | 0, _ =>
      cases hb
      decide
    | 1, _ =>
      cases hb
      decide
  have hends : EndsAt maxGroups [0x85, 0x80, 0x00, 0x09] 2 :=
    ⟨by decide, hfirst, 0x00, rfl, by decide, by decide⟩
  obtain ⟨-, -, hread, -⟩ := varuint_exact
  obtain ⟨hok, -, hlength⟩ := hread (.ofBytes [0x85, 0x80, 0x00, 0x09]) 2 hends
  exact ⟨hends, hok, hlength⟩

end ChainKit.Wire
