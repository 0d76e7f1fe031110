import ChainKit.Bytes.Basic
import ChainKit.Bytes.Radix

namespace ChainKit.Radix
set_option autoImplicit true

theorem takeWhile_eq_replicate [DecidableEq α] (a : α) (l : List α) :
    l.takeWhile (· = a) = List.replicate (l.takeWhile (· = a)).length a := by
  refine List.eq_replicate_iff.2 ⟨rfl, fun b hb => ?_⟩
  have h := List.all_takeWhile (p := (· = a)) (l := l)
  simpa using List.all_eq_true.1 h b hb

theorem value_append (b : Nat) (ds es : List Nat) :
    value b (ds ++ es) = value b ds * b ^ es.length + value b es := by
  have hacc (n : Nat) (es : List Nat) :
      es.foldl (fun n d => n * b + d) n = n * b ^ es.length + value b es := by
    induction es generalizing n with
    | nil => simp [value]
    | cons e es ih =>
      rw [value, List.foldl_cons, List.foldl_cons, ih, ih (0 * b + e), List.length_cons,
        Nat.pow_succ', Nat.add_mul, Nat.add_mul, Nat.mul_assoc]
      omega
  rw [value, List.foldl_append, hacc]
  rfl

theorem value_concat (b : Nat) (ds : List Nat) (d : Nat) :
    value b (ds ++ [d]) = value b ds * b + d := by
  simp [value]

theorem value_cons (b d : Nat) (ds : List Nat) :
    value b (d :: ds) = d * b ^ ds.length + value b ds := by
  rw [← List.singleton_append, value_append]
  simp [value]

theorem value_zeros (b k : Nat) : value b (List.replicate k 0) = 0 := by
  induction k with
  | zero => rfl
  | succ k ih => rw [List.replicate_succ', value_concat, ih, Nat.zero_mul]

theorem value_lt (h : ∀ d ∈ ds, d < b) : value b ds < b ^ ds.length := by
  induction ds with
  | nil => exact Nat.one_pos
  | cons d ds ih =>
    have htail := ih fun e he => h e (List.mem_cons_of_mem _ he)
    have hhead := Nat.mul_le_mul_right (b ^ ds.length) (h d List.mem_cons_self)
    rw [Nat.succ_mul] at hhead
    rw [value_cons, List.length_cons, Nat.pow_succ']
    omega

theorem value_digitsLow (hb : 2 ≤ b) (hf : n ≤ fuel) :
    value b (digitsLow b fuel n).reverse = n := by
  induction fuel generalizing n with
  | zero => cases Nat.le_zero.1 hf; rfl
  | succ fuel ih =>
    rw [digitsLow]
    split
    · rename_i h
      exact h.symm
    · rename_i h
      have hq : n / b < n := Nat.div_lt_self (Nat.pos_of_ne_zero h) hb
      rw [List.reverse_cons, value_concat, ih (by omega), Nat.div_add_mod']

theorem value_digits (hb : 2 ≤ b) (n : Nat) : value b (digits b n) = n :=
  value_digitsLow hb (Nat.le_refl n)

theorem digits_lt (hb : 2 ≤ b) (h : d ∈ digits b n) : d < b := by
  have hlow (fuel n : Nat) (h : d ∈ digitsLow b fuel n) : d < b := by
    induction fuel generalizing n with
    | zero => cases h
    | succ fuel ih =>
      rw [digitsLow] at h
      split at h
      · cases h
      · rcases List.mem_cons.1 h with rfl | h
        · exact Nat.mod_lt _ (by omega)
        · exact ih _ h
  exact hlow n n (List.mem_reverse.1 h)

theorem value_ne_zero (hb : 2 ≤ b) (h : ∀ d, ds.head? = some d → d ≠ 0) (hne : ds ≠ []) :
    value b ds ≠ 0 := by
  cases ds with
  | nil => exact absurd rfl hne
  | cons d ds =>
    have hd : 0 < d * b ^ ds.length :=
      Nat.mul_pos (Nat.pos_of_ne_zero (h d rfl)) (Nat.pow_pos (by omega))
    rw [value_cons]
    omega

theorem digits_value (hb : 2 ≤ b) (hlt : ∀ d ∈ ds, d < b)
    (hhead : ∀ d, ds.head? = some d → d ≠ 0) : digits b (value b ds) = ds := by
  have hlow (low : List Nat) (fuel : Nat) (hlt : ∀ d ∈ low, d < b)
      (hlast : ∀ d, low.reverse.head? = some d → d ≠ 0) (hf : value b low.reverse ≤ fuel) :
      digitsLow b fuel (value b low.reverse) = low := by
    induction low generalizing fuel with
    | nil => cases fuel <;> rfl
    | cons d low ih =>
      have hne := value_ne_zero hb hlast (by simp)
      cases fuel with
      | zero => exact absurd (Nat.le_zero.1 hf) hne
      | succ fuel =>
        have hd := hlt d List.mem_cons_self
        have hlast' : ∀ e, low.reverse.head? = some e → e ≠ 0 := by
          intro e he
          refine hlast e ?_
          rw [List.reverse_cons, List.head?_append, he]
          rfl
        rw [digitsLow, if_neg hne]
        rw [List.reverse_cons, value_concat] at hf hne ⊢
        have hmod : (value b low.reverse * b + d) % b = d := by
          rw [Nat.mul_comm, Nat.mul_add_mod, Nat.mod_eq_of_lt hd]
        have hdiv : (value b low.reverse * b + d) / b = value b low.reverse := by
          rw [Nat.mul_comm, Nat.mul_add_div (by omega), Nat.div_eq_of_lt hd, Nat.add_zero]
        have hle : value b low.reverse ≤ fuel := by
          have := Nat.mul_le_mul_left (value b low.reverse) hb
          omega
        rw [hmod, hdiv, ih fuel (fun e he => hlt e (List.mem_cons_of_mem _ he)) hlast' hle]
  have h := hlow ds.reverse (value b ds) (by simpa using hlt) (by simpa using hhead) (by simp)
  rw [List.reverse_reverse] at h
  rw [digits, h, List.reverse_reverse]

theorem digits_head_ne_zero (hb : 2 ≤ b) (h : (digits b n).head? = some d) : d ≠ 0 := by
  have hlow (fuel n : Nat) (hf : n ≤ fuel) (h : (digitsLow b fuel n).getLast? = some d) :
      d ≠ 0 := by
    induction fuel generalizing n with
    | zero => cases h
    | succ fuel ih =>
      rw [digitsLow] at h
      split at h
      · cases h
      · rename_i hn
        have hq : n / b < n := Nat.div_lt_self (Nat.pos_of_ne_zero hn) hb
        cases hr : digitsLow b fuel (n / b) with
        | nil =>
          have hle : n / b ≤ fuel := by omega
          have hv := value_digitsLow hb hle
          rw [hr] at h hv
          simp only [List.getLast?_singleton, Option.some.injEq] at h
          have hm := Nat.div_add_mod n b
          rw [← hv] at hm
          simp only [List.reverse_nil, value, List.foldl_nil] at hm
          omega
        | cons e es =>
          refine ih (n / b) (by omega) ?_
          rw [hr] at h ⊢
          simpa [List.getLast?_cons_cons] using h
  exact hlow n n (Nat.le_refl n) (by simpa [digits, List.head?_reverse] using h)

theorem replicate_append_dropWhile [DecidableEq α] (a : α) (l : List α) :
    List.replicate (l.takeWhile (· = a)).length a ++ l.dropWhile (· = a) = l := by
  rw [← takeWhile_eq_replicate, List.takeWhile_append_dropWhile]

theorem length_takeWhile_zeros (h : ∀ d, ds.head? = some d → d ≠ 0) :
    ((List.replicate k 0 ++ ds).takeWhile (· = 0)).length = k := by
  have hds : ds.takeWhile (· = 0) = [] := by
    cases ds with
    | nil => rfl
    | cons d ds => exact List.takeWhile_cons_of_neg (by simpa using h d rfl)
  rw [List.takeWhile_append_of_pos (by simp), hds, List.append_nil, List.length_replicate]

theorem head?_dropWhile_ne_zero {ds : List Nat} (h : (ds.dropWhile (· = 0)).head? = some d) :
    d ≠ 0 := by
  have hne := List.head?_dropWhile_not (· = 0) ds
  rw [h] at hne
  exact of_decide_eq_false hne

/-- Zeros at the front do not count, and the other digits are the numeral of their value. -/
theorem digits_value_zeros (hb : 2 ≤ b) (hlt : ∀ d ∈ ds, d < b) :
    digits b (value b ds) = ds.dropWhile (· = 0) := by
  have hvalue : value b ds = value b (ds.dropWhile (· = 0)) := by
    conv => lhs; rw [← replicate_append_dropWhile 0 ds]
    rw [value_append, value_zeros, Nat.zero_mul, Nat.zero_add]
  rw [hvalue]
  apply digits_value hb
  · intro d hd
    exact hlt d (List.dropWhile_subset _ hd)
  · intro d hd
    exact head?_dropWhile_ne_zero hd

/-- A numeral with leading zeros, written in another base with as many of them. -/
def recode (b c : Nat) (ds : List Nat) : List Nat :=
  List.replicate (ds.takeWhile (· = 0)).length 0 ++ digits c (value b ds)

theorem recode_lt (hc : 2 ≤ c) (h : d ∈ recode b c ds) : d < c := by
  rcases List.mem_append.mp h with h | h
  · rw [List.eq_of_mem_replicate h]
    exact Nat.lt_of_lt_of_le (by decide) hc
  · exact digits_lt hc h

theorem recode_recode (hb : 2 ≤ b) (hc : 2 ≤ c) (h : ∀ d ∈ ds, d < b) :
    recode c b (recode b c ds) = ds := by
  have hhead : ∀ d, (digits c (value b ds)).head? = some d → d ≠ 0 := fun d =>
    digits_head_ne_zero hc
  rw [recode, recode, length_takeWhile_zeros hhead, value_append, value_zeros, Nat.zero_mul,
    Nat.zero_add, value_digits hc, digits_value_zeros hb h, replicate_append_dropWhile]

end ChainKit.Radix

namespace ChainKit.Bytes

theorem toNatBE_eq_value (bs : Bytes) : toNatBE bs = Radix.value 256 (bs.map UInt8.toNat) := by
  rw [toNatBE, Radix.value, List.foldl_map]
  simp only [Nat.mul_comm]

end ChainKit.Bytes
