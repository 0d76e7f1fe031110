import ChainKit.Proofs.Bytes.Radix
import ChainKit.Text.Blank
import ChainKit.Text.Decimal

namespace ChainKit

namespace Text
set_option autoImplicit true

theorem trimStart_eq (h : ∀ c, cs.head? = some c → isBlank c = false) : trimStart cs = cs := by
  cases cs with
  | nil => rfl
  | cons c cs => exact List.dropWhile_cons_of_neg (by simp [h c rfl])

theorem trim_eq (hf : ∀ c, cs.head? = some c → isBlank c = false)
    (hl : ∀ c, cs.getLast? = some c → isBlank c = false) : trim cs = cs := by
  have hr : trimStart cs.reverse = cs.reverse := trimStart_eq (by simpa using hl)
  rw [trim, trimStart_eq hf, hr, List.reverse_reverse]

theorem trim_of_all (h : ∀ c ∈ cs, isBlank c = false) : trim cs = cs :=
  trim_eq (fun c hc => h c (List.mem_of_head? hc)) (fun c hc => h c (List.mem_of_getLast? hc))

theorem isBlank_graphic (h : 33 ≤ c.toNat ∧ c.toNat ≤ 126) : isBlank c = false := by
  rw [isBlank, List.contains_eq_mem, decide_eq_false_iff_not]
  simp only [blanks, List.mem_cons, List.not_mem_nil, or_false]
  omega

theorem toNat_of_isDigit {c : Char} (h : c.isDigit) : 48 ≤ c.toNat ∧ c.toNat ≤ 57 := by
  simpa [Char.isDigit, UInt32.le_iff_toNat_le] using h

theorem isBlank_digit (h : c.isDigit) : isBlank c = false := by
  have hc := toNat_of_isDigit h
  exact isBlank_graphic (by omega)

end Text

namespace Decimal
set_option autoImplicit true

theorem natOfDigits_eq_value (cs : List Char) :
    natOfDigits cs = Radix.value 10 (cs.map digitValue) := by
  rw [natOfDigits, Radix.value, List.foldl_map]

theorem natOfDigits_append (cs ds : List Char) :
    natOfDigits (cs ++ ds) = natOfDigits cs * 10 ^ ds.length + natOfDigits ds := by
  simp only [natOfDigits_eq_value, List.map_append, Radix.value_append, List.length_map]

theorem digitValue_digitChar (h : d < 10) : digitValue (Nat.digitChar d) = d := by
  revert d
  decide

theorem digitValue_lt (h : c.isDigit) : digitValue c < 10 := by
  have hc := Text.toNat_of_isDigit h
  rw [digitValue]
  omega

theorem natOfDigits_lt (h : ∀ c ∈ ds, c.isDigit) : natOfDigits ds < 10 ^ ds.length := by
  rw [natOfDigits_eq_value, ← List.length_map digitValue]
  apply Radix.value_lt
  intro d hd
  obtain ⟨c, hc, rfl⟩ := List.mem_map.mp hd
  exact digitValue_lt (h c hc)

@[simp] theorem natOfDigits_ofNat (n : Nat) : natOfDigits (ofNat n) = n := by
  induction n using Nat.strongRecOn with
  | ind n ih =>
    rw [ofNat, Nat.toDigits_eq_if (by decide)]
    split
    · rename_i h
      simp [natOfDigits, digitValue_digitChar h]
    · have hd := digitValue_digitChar (Nat.mod_lt n (y := 10) (by decide))
      have hq : natOfDigits (Nat.toDigits 10 (n / 10)) = n / 10 := ih _ (by omega)
      rw [natOfDigits_append, hq]
      simp only [natOfDigits, List.foldl_cons, List.foldl_nil, List.length_singleton, hd]
      omega

theorem isDigit_of_mem_ofNat (h : c ∈ ofNat n) : c.isDigit :=
  Nat.isDigit_of_mem_toDigits (by decide) (by decide) h

theorem ofNat_ne_nil (n : Nat) : ofNat n ≠ [] := Nat.toDigits_ne_nil

theorem digits?_eq (hne : cs ≠ []) (h : ∀ c ∈ cs, c.isDigit) :
    digits? cs = some (natOfDigits cs) :=
  if_pos ⟨hne, List.all_eq_true.2 h⟩

theorem digits?_ofNat (n : Nat) : digits? (ofNat n) = some n := by
  rw [digits?_eq (ofNat_ne_nil n) fun _ => isDigit_of_mem_ofNat, natOfDigits_ofNat]

theorem nat?_ofNat (n : Nat) : nat? (ofNat n) = some n := by
  unfold nat?
  split
  · rename_i cs h
    have hp : '+'.isDigit := isDigit_of_mem_ofNat (n := n) (h ▸ List.mem_cons_self)
    cases hp
  · exact digits?_ofNat n

theorem int?_ofNat (n : Nat) : int? (ofNat n) = some (n : Int) := by
  unfold int?
  split
  · rename_i cs h
    have hm : '-'.isDigit := isDigit_of_mem_ofNat (n := n) (h ▸ List.mem_cons_self)
    cases hm
  · rename_i cs h
    have hp : '+'.isDigit := isDigit_of_mem_ofNat (n := n) (h ▸ List.mem_cons_self)
    cases hp
  · rw [digits?_ofNat]
    rfl

theorem int?_ofInt (i : Int) : int? (ofInt i) = some i := by
  cases i with
  | ofNat n => exact int?_ofNat n
  | negSucc n =>
    rw [ofInt, int?, digits?_ofNat]
    rfl

theorem trim_ofNat (n : Nat) : Text.trim (ofNat n) = ofNat n :=
  Text.trim_of_all fun _ h => Text.isBlank_digit (isDigit_of_mem_ofNat h)

theorem trim_ofInt (i : Int) : Text.trim (ofInt i) = ofInt i := by
  cases i with
  | ofNat n => exact trim_ofNat n
  | negSucc n =>
    refine Text.trim_of_all fun c h => ?_
    rcases List.mem_cons.1 h with rfl | h
    · decide
    · exact Text.isBlank_digit (isDigit_of_mem_ofNat h)

theorem lt_pow_length (n : Nat) : n < 10 ^ (ofNat n).length :=
  (Nat.length_toDigits_le_iff (by decide) Nat.length_toDigits_pos).1 (Nat.le_refl _)

theorem pow_le_of_pos (h : 0 < n) : 10 ^ ((ofNat n).length - 1) ≤ n := by
  cases hk : (ofNat n).length - 1 with
  | zero => exact h
  | succ k =>
    apply Nat.le_of_not_lt
    intro hlt
    have hle : (ofNat n).length ≤ k + 1 :=
      (Nat.length_toDigits_le_iff (by decide) (Nat.succ_pos k)).2 hlt
    omega

theorem head?_ofNat_append (n : Nat) (cs : List Char) :
    (ofNat n ++ cs).head? = (ofNat n).head? := by
  cases h : ofNat n with
  | nil => exact absurd h (ofNat_ne_nil n)
  | cons c ds => rfl

theorem eq_zero_of_head? (h : (ofNat n).head? = some '0') : n = 0 := by
  induction n using Nat.strongRecOn with
  | ind n ih =>
    rw [ofNat, Nat.toDigits_eq_if (by decide)] at h
    split at h
    · rename_i hn
      have hd := digitValue_digitChar hn
      rw [Option.some.inj h] at hd
      exact hd.symm
    · rw [← ofNat, head?_ofNat_append] at h
      have hq := ih (n / 10) (by omega) h
      omega

theorem length_ofNat_le (hw : 0 < width) (h : n < 10 ^ width) : (ofNat n).length ≤ width :=
  (Nat.length_toDigits_le_iff (by decide) hw).2 h

theorem length_padded_eq (width n : Nat) :
    (padded width n).length = max width (ofNat n).length := by
  rw [padded, List.length_append, List.length_replicate]
  omega

theorem length_padded (hw : 0 < width) (h : n < 10 ^ width) : (padded width n).length = width := by
  rw [length_padded_eq, Nat.max_eq_left (length_ofNat_le hw h)]

theorem padded_of_le (h : width ≤ (ofNat n).length) : padded width n = ofNat n := by
  rw [padded, Nat.sub_eq_zero_of_le h]
  rfl

theorem natOfDigits_zeros (k : Nat) : natOfDigits (List.replicate k '0') = 0 := by
  rw [natOfDigits_eq_value, List.map_replicate]
  exact Radix.value_zeros 10 k

@[simp] theorem natOfDigits_padded (width n : Nat) : natOfDigits (padded width n) = n := by
  rw [padded, natOfDigits_append, natOfDigits_zeros, natOfDigits_ofNat, Nat.zero_mul, Nat.zero_add]

theorem isDigit_of_mem_padded (h : c ∈ padded width n) : c.isDigit := by
  rcases List.mem_append.1 h with h | h
  · rw [List.eq_of_mem_replicate h]
    rfl
  · exact isDigit_of_mem_ofNat h

theorem padded_ne_nil (width n : Nat) : padded width n ≠ [] := by
  simp [padded, ofNat_ne_nil]

end Decimal
end ChainKit
