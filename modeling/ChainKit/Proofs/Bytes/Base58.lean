import ChainKit.Bytes.Base58
import ChainKit.Proofs.Bytes.Radix
import ChainKit.Proofs.Result

namespace ChainKit.Base58
set_option autoImplicit true

theorem symbolValue?_symbol (h : d < 58) : symbolValue? (symbol d) = some d := by
  revert d
  decide

theorem symbol_ascii (h : d < 58) : (symbol d).toNat < 128 := by
  revert d
  decide

theorem symbolValues_map_symbol (i : Nat) (h : ∀ d ∈ ds, d < 58) :
    symbolValues i (ds.map symbol) = .ok ds := by
  induction ds generalizing i with
  | nil => rfl
  | cons d ds ih =>
    have hd := h d List.mem_cons_self
    rw [List.map_cons, symbolValues, if_pos (symbol_ascii hd), symbolValue?_symbol hd,
      ih (i + 1) fun e he => h e (List.mem_cons_of_mem _ he)]
    rfl

theorem encodeChars_eq (bs : Bytes) :
    encodeChars bs = (Radix.recode 256 58 (bs.map UInt8.toNat)).map symbol := by
  have hzeros : ((bs.map UInt8.toNat).takeWhile (· = 0)).length =
      (bs.takeWhile (· = 0)).length := by
    rw [List.takeWhile_map, List.length_map]
    congr 2
    funext b
    exact decide_eq_decide.mpr (UInt8.toNat_inj (b := 0))
  rw [encodeChars, Bytes.toNatBE_eq_value, Radix.recode, hzeros, List.map_append, List.map_replicate]
  rfl

theorem decodeChars_eq (cs : List Char) : decodeChars cs =
    (symbolValues 0 cs).map fun ds => (Radix.recode 58 256 ds).map UInt8.ofNat := by
  simp only [decodeChars, Radix.recode, List.map_append, List.map_replicate]
  rfl

theorem map_ofNat_toNat (bs : Bytes) : (bs.map UInt8.toNat).map UInt8.ofNat = bs := by
  simp [Function.comp_def]

theorem map_toNat_ofNat {ds : List Nat} (h : ∀ d ∈ ds, d < 256) :
    (ds.map UInt8.ofNat).map UInt8.toNat = ds := by
  rw [List.map_map]
  refine (List.map_congr_left fun d hd => ?_).trans (List.map_id ds)
  exact Nat.mod_eq_of_lt (h d hd)

@[simp] theorem decodeChars_encodeChars (bs : Bytes) : decodeChars (encodeChars bs) = .ok bs := by
  have hlt : ∀ d ∈ Radix.recode 256 58 (bs.map UInt8.toNat), d < 58 := fun d =>
    Radix.recode_lt (by decide)
  have hbytes : ∀ d ∈ bs.map UInt8.toNat, d < 256 := by
    intro d hd
    obtain ⟨b, -, rfl⟩ := List.mem_map.mp hd
    exact b.toNat_lt
  rw [decodeChars_eq, encodeChars_eq, symbolValues_map_symbol 0 hlt, Except.map,
    Radix.recode_recode (by decide) (by decide) hbytes, map_ofNat_toNat]

theorem symbol_of_symbolValue? (h : symbolValue? c = some d) : d < 58 ∧ symbol d = c :=
  Result.getD_of_idxOf? h '1'

theorem map_symbol_of_symbolValues (h : symbolValues i cs = .ok ds) :
    (∀ d ∈ ds, d < 58) ∧ ds.map symbol = cs := by
  induction cs generalizing i ds with
  | nil =>
    cases h
    exact ⟨nofun, rfl⟩
  | cons c cs ih =>
    rw [symbolValues] at h
    split at h
    · split at h
      · rename_i d hc
        obtain ⟨tail, htail, rfl⟩ := Result.map_eq_ok.mp h
        obtain ⟨hd, rfl⟩ := symbol_of_symbolValue? hc
        obtain ⟨hlt, rfl⟩ := ih htail
        exact ⟨List.forall_mem_cons.mpr ⟨hd, hlt⟩, rfl⟩
      · cases h
    · cases h

/-- A text that is read as bytes is the one that is written for them. -/
theorem encodeChars_of_decodeChars (h : decodeChars cs = .ok bs) : encodeChars bs = cs := by
  rw [decodeChars_eq] at h
  obtain ⟨ds, hds, rfl⟩ := Result.map_eq_ok.mp h
  obtain ⟨hlt, rfl⟩ := map_symbol_of_symbolValues hds
  rw [encodeChars_eq, map_toNat_ofNat fun d => Radix.recode_lt (by decide),
    Radix.recode_recode (by decide) (by decide) hlt]

theorem decodeChars_eq_ok : decodeChars cs = .ok bs ↔ cs = encodeChars bs := by
  constructor
  · intro h
    exact (encodeChars_of_decodeChars h).symm
  · rintro rfl
    exact decodeChars_encodeChars bs

theorem encodeChars_inj (h : encodeChars bs = encodeChars bs') : bs = bs' := by
  have hread := decodeChars_encodeChars bs
  rw [h, decodeChars_encodeChars] at hread
  exact (Except.ok.inj hread).symm

theorem mem_alphabet (h : c ∈ encodeChars bs) : c ∈ alphabet := by
  have hsymbol : ∀ d < 58, symbol d ∈ alphabet := by decide
  rw [encodeChars_eq] at h
  obtain ⟨d, hd, rfl⟩ := List.mem_map.mp h
  exact hsymbol d (Radix.recode_lt (by decide) hd)

end ChainKit.Base58
