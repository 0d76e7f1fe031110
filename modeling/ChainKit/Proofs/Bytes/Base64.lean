import ChainKit.Bytes.Base64
import ChainKit.Proofs.Bytes.Radix
import ChainKit.Proofs.Result
import ChainKit.Proofs.Text.Utf8
import Mathlib.Data.List.DropRight

namespace ChainKit.Base64
set_option autoImplicit true

theorem symbolValue?_symbol (h : d < 64) : symbolValue? (symbol d) = some d := by
  revert d
  decide +kernel

theorem symbol_ascii (h : d < 64) : (symbol d).toNat < 128 := by
  revert d
  decide +kernel

theorem symbol_ne_pad (h : d < 64) : symbol d ≠ '=' := by
  revert d
  decide +kernel

theorem symbol_of_symbolValue? (h : symbolValue? c = some d) : d < 64 ∧ symbol d = c :=
  Result.getD_of_idxOf? h 'A'

theorem mapM_symbolValue? {ds : List Nat} (h : ∀ d ∈ ds, d < 64) :
    (ds.map symbol).mapM symbolValue? = some ds := by
  induction ds with
  | nil => rfl
  | cons d ds ih =>
    obtain ⟨hd, hds⟩ := List.forall_mem_cons.mp h
    rw [List.map_cons, List.mapM_cons, symbolValue?_symbol hd, ih hds]
    rfl

theorem map_symbol_of_mapM {cs : List Char} (h : cs.mapM symbolValue? = some ds) :
    (∀ d ∈ ds, d < 64) ∧ ds.map symbol = cs := by
  induction cs generalizing ds with
  | nil =>
    cases h
    exact ⟨nofun, rfl⟩
  | cons c cs ih =>
    rw [List.mapM_cons] at h
    obtain ⟨d, hd, h⟩ := Option.bind_eq_some_iff.mp h
    obtain ⟨tail, htail, h⟩ := Option.bind_eq_some_iff.mp h
    cases h
    obtain ⟨hlt, rfl⟩ := symbol_of_symbolValue? hd
    obtain ⟨hall, rfl⟩ := ih htail
    exact ⟨List.forall_mem_cons.mpr ⟨hlt, hall⟩, rfl⟩

def values : Bytes → List Nat
  | a :: b :: c :: rest =>
    let n := a.toNat * 65536 + b.toNat * 256 + c.toNat
    n / 262144 :: n / 4096 % 64 :: n / 64 % 64 :: n % 64 :: values rest
  | [a, b] =>
    let n := a.toNat * 256 + b.toNat
    [n / 1024, n / 16 % 64, n % 16 * 4]
  | [a] => [a.toNat / 4, a.toNat % 4 * 16]
  | [] => []

theorem encodeUnpadded_eq (bs : Bytes) : encodeUnpadded bs = (values bs).map symbol := by
  fun_induction values bs with
  | case1 a b c rest n ih => rw [encodeUnpadded, ih]; rfl
  | case2 a b n => rfl
  | case3 a => rfl
  | case4 => rfl

theorem values_lt (bs : Bytes) : ∀ d ∈ values bs, d < 64 := by
  fun_induction values bs with
  | case1 a b c rest n ih =>
    have ha := a.toNat_lt
    have hb := b.toNat_lt
    have hc := c.toNat_lt
    simp only [List.forall_mem_cons]
    exact ⟨by omega, by omega, by omega, by omega, ih⟩
  | case2 a b n =>
    have ha := a.toNat_lt
    have hb := b.toNat_lt
    simp only [List.forall_mem_cons]
    exact ⟨by omega, by omega, by omega, nofun⟩
  | case3 a =>
    have ha := a.toNat_lt
    simp only [List.forall_mem_cons]
    exact ⟨by omega, by omega, nofun⟩
  | case4 => exact nofun

def missing (length : Nat) : Nat := (3 - length % 3) % 3

theorem missing_add (length : Nat) : missing (length + 3) = missing length := by
  rw [missing, missing, Nat.add_mod_right]

theorem length_values (bs : Bytes) :
    3 * (values bs).length = 4 * bs.length + missing bs.length := by
  fun_induction values bs with
  | case1 a b c rest n ih =>
    simp only [List.length_cons, missing_add]
    omega
  | case2 a b n => rfl
  | case3 a => rfl
  | case4 => rfl

theorem pow_length_values (bs : Bytes) :
    64 ^ (values bs).length = 256 ^ bs.length * 4 ^ missing bs.length := by
  rw [show 64 = 4 ^ 3 from rfl, show 256 = 4 ^ 4 from rfl, ← Nat.pow_mul, ← Nat.pow_mul,
    length_values, Nat.pow_add]

theorem value_sextets (n : Nat) :
    Radix.value 64 [n / 262144, n / 4096 % 64, n / 64 % 64, n % 64] = n := by
  simp only [Radix.value, List.foldl_cons, List.foldl_nil]
  omega

theorem value_octets (a b c : Nat) :
    Radix.value 256 [a, b, c] = a * 65536 + b * 256 + c := by
  simp only [Radix.value, List.foldl_cons, List.foldl_nil]
  omega

/-- The values are the digits of the number of the bytes, with zero bits behind it up to a whole
digit. -/
theorem value_values (bs : Bytes) : Radix.value 64 (values bs) =
    Radix.value 256 (bs.map UInt8.toNat) * 4 ^ missing bs.length := by
  fun_induction values bs with
  | case1 a b c rest n ih =>
    have hvalues := Radix.value_append 64 [n / 262144, n / 4096 % 64, n / 64 % 64, n % 64]
      (values rest)
    have hnumber := Radix.value_append 256 [a.toNat, b.toNat, c.toNat] (rest.map UInt8.toNat)
    rw [value_sextets, pow_length_values, ih] at hvalues
    rw [value_octets, List.length_map] at hnumber
    simp only [List.length_cons, missing_add]
    refine hvalues.trans ?_
    rw [← Nat.mul_assoc, ← Nat.add_mul, ← hnumber]
    rfl
  | case2 a b n =>
    simp only [Radix.value, List.map_cons, List.map_nil, List.foldl_cons, List.foldl_nil]
    change _ = _ * 4
    omega
  | case3 a =>
    simp only [Radix.value, List.map_cons, List.map_nil, List.foldl_cons, List.foldl_nil]
    change _ = _ * 16
    omega
  | case4 => rfl

theorem byte_eq {b : UInt8} (h : n % 256 = b.toNat) : UInt8.ofNat n = b := by
  apply UInt8.toNat.inj
  rw [UInt8.toNat_ofNat']
  exact h

theorem decodeValues_values (bs : Bytes) : decodeValues (values bs) = some bs := by
  fun_induction values bs with
  | case1 a b c rest n ih =>
    have ha := a.toNat_lt
    have hb := b.toNat_lt
    have hc := c.toNat_lt
    simp only [decodeValues, ih, Option.map_some]
    rw [byte_eq (b := a) (by omega), byte_eq (b := b) (by omega), byte_eq (b := c) (by omega)]
    rfl
  | case2 a b n =>
    have ha := a.toNat_lt
    have hb := b.toNat_lt
    rw [decodeValues, if_pos (by omega), byte_eq (b := a) (by omega), byte_eq (b := b) (by omega)]
  | case3 a =>
    have ha := a.toNat_lt
    rw [decodeValues, if_pos (by omega), byte_eq (b := a) (by omega)]
  | case4 => rfl

theorem values_of_decodeValues (hlt : ∀ d ∈ ds, d < 64) (h : decodeValues ds = some bs) :
    values bs = ds := by
  fun_induction decodeValues ds generalizing bs with
  | case1 a b c d rest n =>
    rename_i ih
    simp only [List.forall_mem_cons] at hlt
    obtain ⟨ha, hb, hc, hd, hrest⟩ := hlt
    obtain ⟨bs', hbs, rfl⟩ := Option.map_eq_some_iff.mp h
    have hn : n / 65536 % 2 ^ 8 * 65536 + n / 256 % 2 ^ 8 * 256 + n % 2 ^ 8 = n := by omega
    simp only [List.cons_append, List.nil_append, values, ih hrest hbs, UInt8.toNat_ofNat',
      List.cons.injEq, and_true, hn]
    omega
  | case2 a b c n =>
    rename_i hzero
    simp only [List.forall_mem_cons] at hlt
    obtain ⟨ha, hb, hc, -⟩ := hlt
    obtain rfl := Option.some.inj h
    have hn : n / 256 % 2 ^ 8 * 256 + n % 2 ^ 8 = n := by omega
    simp only [values, UInt8.toNat_ofNat', List.cons.injEq, and_true, hn]
    omega
  | case3 a b c hodd => cases h
  | case4 a b hzero =>
    simp only [List.forall_mem_cons] at hlt
    obtain ⟨ha, hb, -⟩ := hlt
    obtain rfl := Option.some.inj h
    simp only [values, UInt8.toNat_ofNat', List.cons.injEq, and_true]
    omega
  | case5 a b hodd => cases h
  | case6 a => cases h
  | case7 =>
    obtain rfl := Option.some.inj h
    rfl

theorem decodeUnpadded_encodeUnpadded (bs : Bytes) :
    decodeUnpadded (encodeUnpadded bs) = some bs := by
  rw [decodeUnpadded, encodeUnpadded_eq, mapM_symbolValue? (values_lt bs)]
  exact decodeValues_values bs

/-- Symbols are read as bytes just if they are what is written for those bytes. -/
theorem decodeUnpadded_eq_some : decodeUnpadded cs = some bs ↔ cs = encodeUnpadded bs := by
  constructor
  · intro h
    obtain ⟨ds, hds, hbs⟩ := Option.bind_eq_some_iff.mp h
    obtain ⟨hlt, rfl⟩ := map_symbol_of_mapM hds
    rw [encodeUnpadded_eq, values_of_decodeValues hlt hbs]
  · rintro rfl
    exact decodeUnpadded_encodeUnpadded bs

theorem exists_digits (bs : Bytes) : ∃ ds, encodeUnpadded bs = ds.map symbol ∧
    (∀ d ∈ ds, d < 64) ∧ 3 * ds.length = 4 * bs.length + missing bs.length ∧
    Radix.value 64 ds = Bytes.toNatBE bs * 4 ^ missing bs.length := by
  refine ⟨values bs, encodeUnpadded_eq bs, values_lt bs, length_values bs, ?_⟩
  rw [value_values, Bytes.toNatBE_eq_value]

theorem pad_notMem_encodeUnpadded (bs : Bytes) : '=' ∉ encodeUnpadded bs := by
  rw [encodeUnpadded_eq]
  intro h
  obtain ⟨d, hd, hpad⟩ := List.mem_map.mp h
  exact symbol_ne_pad (values_lt bs d hd) hpad

theorem length_encodeUnpadded (bs : Bytes) : (encodeUnpadded bs).length % 4 ≠ 1 ∧
    (3 - bs.length % 3) % 3 = (4 - (encodeUnpadded bs).length % 4) % 4 := by
  have hlength := length_values bs
  rw [missing] at hlength
  rw [encodeUnpadded_eq, List.length_map]
  omega

theorem utf8ByteSize_encodeUnpadded (bs : Bytes) :
    (String.ofList (encodeUnpadded bs)).utf8ByteSize = (encodeUnpadded bs).length := by
  apply Utf8.utf8ByteSize_ascii
  intro c hc
  rw [encodeUnpadded_eq] at hc
  obtain ⟨d, hd, rfl⟩ := List.mem_map.mp hc
  exact symbol_ascii (values_lt bs d hd)

/-- Written text is the symbols with the padding of a reader. -/
theorem toList_encode (bs : Bytes) :
    (encode bs).toList = encodeUnpadded bs ++ padding (encodeUnpadded bs).length := by
  rw [encode, String.toList_ofList, padding, (length_encodeUnpadded bs).2]

theorem trimPad_append (cs : List Char) (k : Nat) :
    trimPad (cs ++ List.replicate k '=') = trimPad cs := by
  rw [trimPad, trimPad, List.reverse_append, List.reverse_replicate,
    List.dropWhile_append_of_pos]
  intro c hc
  rw [List.eq_of_mem_replicate hc, decide_eq_true rfl]

theorem trimPad_eq (cs : List Char) : trimPad cs = cs.rdropWhile (· = '=') := rfl

theorem trimPad_trimPad (cs : List Char) : trimPad (trimPad cs) = trimPad cs := by
  rw [trimPad_eq, trimPad_eq, List.rdropWhile_idempotent]

theorem trimPad_of_notMem (h : '=' ∉ cs) : trimPad cs = cs := by
  rw [trimPad_eq, List.rdropWhile_eq_self_iff]
  intro hne hlast
  exact h (of_decide_eq_true hlast ▸ List.getLast_mem hne)

theorem unpad?_eq_some (h : unpad? cs = some ds) : ∃ k, cs = ds ++ List.replicate k '=' := by
  rw [unpad?] at h
  split at h
  · cases h
  · split at h
    next rest hrev =>
      obtain rfl := Option.some.inj h
      exact ⟨2, List.reverse_inj.mp (by simp [hrev])⟩
    next rest hrev =>
      obtain rfl := Option.some.inj h
      exact ⟨1, List.reverse_inj.mp (by simp [hrev])⟩
    next =>
      obtain rfl := Option.some.inj h
      exact ⟨0, by simp⟩

theorem unpad?_padding (hpad : '=' ∉ ds) (hlen : ds.length % 4 ≠ 1) :
    unpad? (ds ++ padding ds.length) = some ds := by
  have hhead : ∀ rest, ds.reverse ≠ '=' :: rest := by
    intro rest hrev
    exact hpad (List.mem_reverse.mp (hrev ▸ List.mem_cons_self))
  have hfull : ¬(ds ++ padding ds.length).length % 4 ≠ 0 := by
    rw [List.length_append, padding, List.length_replicate]
    omega
  have hcases : ds.length % 4 = 0 ∨ ds.length % 4 = 2 ∨ ds.length % 4 = 3 := by omega
  rw [unpad?, if_neg hfull]
  obtain hmod | hmod | hmod := hcases
  · have hzero : padding ds.length = [] := by rw [padding, hmod]; rfl
    rw [hzero, List.append_nil]
    split
    next rest hrev => exact absurd hrev (hhead _)
    next rest hrev => exact absurd hrev (hhead _)
    next => rfl
  · have htwo : padding ds.length = ['=', '='] := by rw [padding, hmod]; rfl
    rw [htwo, List.reverse_append]
    exact congrArg some (List.reverse_reverse ds)
  · have hone : padding ds.length = ['='] := by rw [padding, hmod]; rfl
    rw [hone, List.reverse_append]
    split
    next rest hrev => exact absurd (List.cons.inj hrev).2 (hhead rest)
    next rest _ hrev =>
      rw [← (List.cons.inj hrev).2]
      exact congrArg some (List.reverse_reverse ds)
    next hnone => exact absurd rfl (hnone ds.reverse)

theorem trimPad_encode (bs : Bytes) : trimPad (encode bs).toList = encodeUnpadded bs := by
  rw [toList_encode, padding, trimPad_append, trimPad_of_notMem (pad_notMem_encodeUnpadded bs)]

/-- Text without pad characters at its end is read with the padding for its length just if it is
what is written for some bytes. -/
theorem decodePadded_eq_some (htrim : trimPad cs = cs) :
    decodePadded (cs ++ padding (String.ofList cs).utf8ByteSize) = some bs ↔
      cs = encodeUnpadded bs := by
  constructor
  · intro h
    obtain ⟨ds, hunpad, hbs⟩ := Option.bind_eq_some_iff.mp h
    obtain rfl := decodeUnpadded_eq_some.mp hbs
    obtain ⟨k, happend⟩ := unpad?_eq_some hunpad
    have hsame := congrArg trimPad happend
    rwa [padding, trimPad_append, trimPad_append, htrim,
      trimPad_of_notMem (pad_notMem_encodeUnpadded bs)] at hsame
  · rintro rfl
    rw [utf8ByteSize_encodeUnpadded, decodePadded,
      unpad?_padding (pad_notMem_encodeUnpadded bs) (length_encodeUnpadded bs).1]
    exact decodeUnpadded_encodeUnpadded bs

theorem decode?_iff : decode? s = some bs ↔ trimPad s.toList = encodeUnpadded bs :=
  decodePadded_eq_some (trimPad_trimPad s.toList)

theorem decode?_encode (bs : Bytes) : decode? (encode bs) = some bs :=
  decode?_iff.mpr (trimPad_encode bs)

theorem decode?_append (s : String) (k : Nat) :
    decode? (s ++ String.ofList (List.replicate k '=')) = decode? s := by
  rw [decode?, decode?, String.toList_append, String.toList_ofList, trimPad_append]

end ChainKit.Base64
