import ChainKit.Name
import ChainKit.Proofs.Bytes.Radix
import ChainKit.Proofs.Text.Utf8

namespace ChainKit.Name
set_option autoImplicit true

/-- The `places` symbols of five bits of a number, the first one in the high bits. -/
def fives (places q : Nat) : List Nat :=
  (List.range places).map fun i => q / 32 ^ (places - 1 - i) % 32

theorem unpack_eq (v : Nat) : unpack v = fives 12 (v / 16) ++ [v % 16] := rfl

theorem fives_succ (places q : Nat) :
    fives (places + 1) q = q / 32 ^ places % 32 :: fives places q := by
  rw [fives, List.range_succ_eq_map, List.map_cons, List.map_map]
  have htail : (fun i => q / 32 ^ (places + 1 - 1 - i) % 32) ∘ Nat.succ =
      fun i => q / 32 ^ (places - 1 - i) % 32 := by
    funext i
    rw [Function.comp_apply, show places + 1 - 1 - i.succ = places - 1 - i by omega]
  rw [htail]
  rfl

theorem packFives_fives (places q : Nat) (rest : List Nat) :
    packFives places (fives places q ++ rest) = q % 32 ^ places := by
  induction places with
  | zero => rw [packFives, Nat.pow_zero, Nat.mod_one]
  | succ places ih =>
    rw [fives_succ, List.cons_append, packFives, List.headD_cons, List.tail_cons, ih, Nat.pow_succ,
      Nat.mod_mul, Nat.mul_comm, Nat.add_comm]

theorem length_fives (places q : Nat) : (fives places q).length = places := by simp [fives]

theorem pack_unpack (h : v < 2 ^ 64) : pack (unpack v) = v := by
  have hdrop : (fives 12 (v / 16) ++ [v % 16]).drop 12 = [v % 16] :=
    List.drop_left' (length_fives _ _)
  rw [pack, unpack_eq, packFives_fives, hdrop, List.headD_cons]
  omega

theorem packFives_zeros (places k : Nat) : packFives places (List.replicate k 0) = 0 := by
  induction places generalizing k with
  | zero => rfl
  | succ places ih =>
    cases k with
    | zero => simpa [packFives] using ih 0
    | succ k => simpa [packFives, List.replicate_succ] using ih k

theorem packFives_append_zeros (places k : Nat) (ds : List Nat) :
    packFives places (ds ++ List.replicate k 0) = packFives places ds := by
  induction places generalizing ds with
  | zero => rfl
  | succ places ih =>
    cases ds with
    | nil => rw [List.nil_append, packFives_zeros]; exact (packFives_zeros (places + 1) 0).symm
    | cons d ds => simp [packFives, ih]

theorem pack_append_zeros (k : Nat) (ds : List Nat) :
    pack (ds ++ List.replicate k 0) = pack ds := by
  have hlast : ((ds ++ List.replicate k 0).drop 12).headD 0 = (ds.drop 12).headD 0 := by
    rw [List.drop_append]
    cases ds.drop 12 with
    | nil => cases h : k - (12 - ds.length) <;> simp [List.drop_replicate, h, List.replicate_succ]
    | cons d rest => rfl
  rw [pack, pack, packFives_append_zeros, hlast]

theorem symbolValue?_symbol (h : d < 32) : symbolValue? (symbol d) = some d := by
  revert d
  decide

theorem symbol_ascii (h : d < 32) : (symbol d).toNat < 128 := by
  revert d
  decide

theorem symbol_eq_dot (h : d < 32) : symbol d = '.' ↔ d = 0 := by
  revert d
  decide

theorem lt_of_mem_unpack (h : d ∈ unpack v) : d < 32 := by
  rw [unpack_eq, fives] at h
  rcases List.mem_append.1 h with h | h
  · obtain ⟨i, _, rfl⟩ := List.mem_map.1 h
    exact Nat.mod_lt _ (by decide)
  · rw [List.mem_singleton.1 h]
    omega

theorem length_unpack (v : Nat) : (unpack v).length = 13 := by simp [unpack]

/-- The values of the symbols of a name up to the last one that is not a dot. -/
def significant (v : Nat) : List Nat := ((unpack v).reverse.dropWhile (· = 0)).reverse

theorem significant_append_zeros (v : Nat) :
    ∃ k, significant v ++ List.replicate k 0 = unpack v := by
  refine ⟨((unpack v).reverse.takeWhile (· = 0)).length, ?_⟩
  rw [significant, ← List.reverse_replicate, ← Radix.takeWhile_eq_replicate, ← List.reverse_append,
    List.takeWhile_append_dropWhile, List.reverse_reverse]

theorem chars_eq (n : Name) : n.chars = (significant n.value.toNat).map symbol := by
  have hdot : ∀ d ∈ (unpack n.value.toNat).reverse, (symbol d = '.' ↔ d = 0) := fun d hd =>
    symbol_eq_dot (lt_of_mem_unpack (List.mem_reverse.1 hd))
  rw [chars, significant, List.map_reverse, ← List.map_reverse, List.dropWhile_map]
  congr 2
  generalize (unpack n.value.toNat).reverse = ds at hdot
  induction ds with
  | nil => rfl
  | cons d ds ih =>
    have hd := hdot d List.mem_cons_self
    have hds := ih fun e he => hdot e (List.mem_cons_of_mem _ he)
    simp only [List.dropWhile_cons, Function.comp_apply, decide_eq_true_eq, hd]
    split
    · exact hds
    · rfl

theorem getLast?_significant (h : (significant v).getLast? = some d) : d ≠ 0 := by
  have hn := List.head?_dropWhile_not (· = 0) (unpack v).reverse
  rw [significant, List.getLast?_reverse] at h
  rw [h] at hn
  simpa using hn

theorem symbolValues_map_symbol (text : String) (i : Nat) (h : ∀ d ∈ ds, d < 32)
    (hlast : ∀ k d, ds[k]? = some d → 12 ≤ i + k → d ≤ 15) :
    symbolValues text i (ds.map symbol) = .ok ds := by
  induction ds generalizing i with
  | nil => rfl
  | cons d ds ih =>
    have hd : ¬(12 ≤ i ∧ 15 < d) := fun hc => by
      have := hlast 0 d rfl (by omega)
      omega
    rw [List.map_cons, symbolValues, symbolValue?_symbol (h d List.mem_cons_self)]
    simp only [if_neg hd]
    rw [ih (i + 1) (fun e he => h e (List.mem_cons_of_mem _ he))
      fun k e he hk => hlast (k + 1) e he (by omega)]
    rfl

@[simp] theorem parse_text (n : Name) : parse n.text = .ok n := by
  obtain ⟨k, hk⟩ := significant_append_zeros n.value.toNat
  have hlen : (significant n.value.toNat).length ≤ 13 := by
    have := congrArg List.length hk
    rw [length_unpack, List.length_append] at this
    omega
  have hlt : ∀ d ∈ significant n.value.toNat, d < 32 := fun d hd =>
    lt_of_mem_unpack (hk ▸ List.mem_append_left _ hd)
  have hascii : ∀ c ∈ n.chars, c.toNat < 128 := by
    intro c hc
    rw [chars_eq] at hc
    obtain ⟨d, hd, rfl⟩ := List.mem_map.1 hc
    exact symbol_ascii (hlt d hd)
  have hsize : ¬13 < n.text.utf8ByteSize := by
    rw [text, Utf8.utf8ByteSize_ascii hascii, chars_eq, List.length_map]
    omega
  have hdot : n.text.toList.getLast? ≠ some '.' := by
    rw [text, String.toList_ofList, chars_eq, List.getLast?_map]
    intro h
    obtain ⟨d, hd, hs⟩ := Option.map_eq_some_iff.1 h
    exact getLast?_significant hd ((symbol_eq_dot (hlt d (List.mem_of_getLast? hd))).1 hs)
  have hlast : ∀ i d, (significant n.value.toNat)[i]? = some d → 12 ≤ 0 + i → d ≤ 15 := by
    intro i d hd hi
    obtain ⟨hil, hget⟩ := List.getElem?_eq_some_iff.1 hd
    have hu : (unpack n.value.toNat)[i]? = some d := by
      rw [← hk, List.getElem?_append_left hil, hd]
    have h12 : i = 12 := by omega
    rw [h12, unpack_eq, List.getElem?_append_right (by simp [length_fives]), length_fives] at hu
    simp only [Nat.sub_self, List.getElem?_cons_zero, Option.some.injEq] at hu
    omega
  rw [parse, if_neg hsize, if_neg hdot]
  conv => lhs; rw [text, String.toList_ofList, chars_eq]
  rw [symbolValues_map_symbol _ 0 hlt hlast]
  have hpack : pack (significant n.value.toNat) = n.value.toNat := by
    rw [← pack_append_zeros k, hk, pack_unpack n.value.toNat_lt]
  simp [Except.map, hpack]

end ChainKit.Name
