import ChainKit.Proofs.Name.Text
import ChainKit.Proofs.Result

namespace ChainKit.Name
set_option autoImplicit true

/-- Whether a character may stand in a name: a dot, a digit from 1 to 5 or a small letter. -/
def IsSymbol (c : Char) : Prop := c = '.' ∨ ('1' ≤ c ∧ c ≤ '5') ∨ ('a' ≤ c ∧ c ≤ 'z')

/-- Whether a character may be the 13th one, which has only four bits. -/
def IsLastSymbol (c : Char) : Prop := ('1' ≤ c ∧ c ≤ '5') ∨ ('a' ≤ c ∧ c ≤ 'j')

instance (c : Char) : Decidable (IsSymbol c) := inferInstanceAs (Decidable (_ ∨ _))

instance (c : Char) : Decidable (IsLastSymbol c) := inferInstanceAs (Decidable (_ ∨ _))

/-- Whether characters spell a name. -/
structure IsSpelled (cs : List Char) : Prop where
  length_le : cs.length ≤ 13
  symbols : ∀ c ∈ cs, IsSymbol c
  not_dot : cs.getLast? ≠ some '.'
  last : ∀ c, cs[12]? = some c → IsLastSymbol c

theorem isSymbol_symbol (h : d < 32) : IsSymbol (symbol d) := by
  revert d
  decide

theorem isLastSymbol_symbol (h : d < 32) : IsLastSymbol (symbol d) ↔ d ≠ 0 ∧ d ≤ 15 := by
  revert d
  decide

theorem exists_symbol (h : IsSymbol c) : ∃ d < 32, symbol d = c := by
  have hdigit : ∀ d < 32, 1 ≤ d → d ≤ 5 → (symbol d).toNat = 48 + d := by decide
  have hletter : ∀ d < 32, 6 ≤ d → (symbol d).toNat = 91 + d := by decide
  rcases h with rfl | ⟨hlow, hhigh⟩ | ⟨hlow, hhigh⟩
  · exact ⟨0, by decide, rfl⟩
  · have hlow' : 49 ≤ c.toNat := UInt32.le_iff_toNat_le.mp hlow
    have hhigh' : c.toNat ≤ 53 := UInt32.le_iff_toNat_le.mp hhigh
    refine ⟨c.toNat - 48, by omega, Char.toNat_inj.mp ?_⟩
    rw [hdigit _ (by omega) (by omega) (by omega)]
    omega
  · have hlow' : 97 ≤ c.toNat := UInt32.le_iff_toNat_le.mp hlow
    have hhigh' : c.toNat ≤ 122 := UInt32.le_iff_toNat_le.mp hhigh
    refine ⟨c.toNat - 91, by omega, Char.toNat_inj.mp ?_⟩
    rw [hletter _ (by omega) (by omega)]
    omega

theorem symbolValue?_eq_some (h : symbolValue? c = some d) : d < 32 ∧ symbol d = c := by
  obtain ⟨hd, hc, -⟩ := List.idxOf?_eq_some_iff.mp h
  refine ⟨hd, ?_⟩
  rw [symbol, List.getD_eq_getElem?_getD, List.getElem?_eq_getElem hd, Option.getD_some]
  simpa using hc

variable {str : String}

theorem symbolValues_eq_ok (h : symbolValues str i cs = .ok ds) :
    cs = ds.map symbol ∧ (∀ d ∈ ds, d < 32) ∧ ∀ k d, ds[k]? = some d → 12 ≤ i + k → d ≤ 15 := by
  induction cs generalizing i ds with
  | nil =>
    cases h
    exact ⟨rfl, nofun, nofun⟩
  | cons c cs ih =>
    rw [symbolValues] at h
    split at h
    · cases h
    rename_i d hd
    split at h
    · cases h
    rename_i hfits
    obtain ⟨ds', hrest, rfl⟩ := Result.map_eq_ok.mp h
    obtain ⟨hlt, rfl⟩ := symbolValue?_eq_some hd
    obtain ⟨rfl, hlts, hlast⟩ := ih hrest
    refine ⟨rfl, List.forall_mem_cons.mpr ⟨hlt, hlts⟩, ?_⟩
    intro k e he hk
    cases k with
    | zero =>
      cases he
      omega
    | succ k => exact hlast k e he (by omega)

theorem exists_map_symbol (h : ∀ c ∈ cs, IsSymbol c) :
    ∃ ds : List Nat, cs = ds.map symbol ∧ ∀ d ∈ ds, d < 32 := by
  induction cs with
  | nil => exact ⟨[], rfl, nofun⟩
  | cons c cs ih =>
    obtain ⟨hc, hcs⟩ := List.forall_mem_cons.mp h
    obtain ⟨d, hd, rfl⟩ := exists_symbol hc
    obtain ⟨ds, rfl, hds⟩ := ih hcs
    exact ⟨d :: ds, rfl, List.forall_mem_cons.mpr ⟨hd, hds⟩⟩

theorem IsSpelled.symbolValues_eq_ok (h : IsSpelled cs) : ∃ ds, symbolValues str 0 cs = .ok ds := by
  obtain ⟨ds, rfl, hlt⟩ := exists_map_symbol h.symbols
  refine ⟨ds, symbolValues_map_symbol str 0 hlt ?_⟩
  intro k d hd hk
  have hlength := h.length_le
  obtain ⟨hkl, -⟩ := List.getElem?_eq_some_iff.mp hd
  rw [List.length_map] at hlength
  have h12 : 12 = k := by omega
  have hsymbol : (ds.map symbol)[12]? = some (symbol d) := by
    rw [h12, List.getElem?_map, hd]
    rfl
  exact ((isLastSymbol_symbol (hlt d (List.mem_of_getElem? hd))).mp (h.last _ hsymbol)).2

theorem packFives_lt (places : Nat) (h : ∀ d ∈ ds, d < 32) : packFives places ds < 32 ^ places := by
  induction places generalizing ds with
  | zero => exact Nat.one_pos
  | succ places ih =>
    have htail := ih fun d hd => h d (List.mem_of_mem_tail hd)
    have hhead : ds.headD 0 < 32 := by
      cases ds with
      | nil => decide
      | cons d ds => exact h d List.mem_cons_self
    have hmul : ds.headD 0 * 32 ^ places ≤ 31 * 32 ^ places := Nat.mul_le_mul_right _ (by omega)
    rw [packFives, Nat.pow_succ]
    omega

theorem fives_add_mul (places a q : Nat) : fives places (a * 32 ^ places + q) = fives places q := by
  induction places generalizing a with
  | zero => rfl
  | succ places ih =>
    have hmul : a * 32 ^ (places + 1) = 32 ^ places * (a * 32) := by
      rw [Nat.pow_succ, Nat.mul_left_comm]
    have hhigh : (a * 32 ^ (places + 1) + q) / 32 ^ places % 32 = q / 32 ^ places % 32 := by
      rw [hmul, Nat.mul_add_div (Nat.pow_pos (by decide)), Nat.mul_comm a, Nat.mul_add_mod]
    have hlow : fives places (a * 32 ^ (places + 1) + q) = fives places q := by
      rw [hmul, Nat.mul_comm, ih]
    rw [fives_succ, fives_succ, hhigh, hlow]

theorem fives_packFives (h : ∀ d ∈ ds, d < 32) (hlength : places ≤ ds.length) :
    fives places (packFives places ds) = ds.take places := by
  induction places generalizing ds with
  | zero => rfl
  | succ places ih =>
    cases ds with
    | nil => cases hlength
    | cons d ds =>
      obtain ⟨hd, hds⟩ := List.forall_mem_cons.mp h
      have hlt := packFives_lt places hds
      have hhigh : (d * 32 ^ places + packFives places ds) / 32 ^ places % 32 = d := by
        rw [Nat.mul_comm, Nat.mul_add_div (Nat.pow_pos (by decide)), Nat.div_eq_of_lt hlt]
        exact Nat.mod_eq_of_lt hd
      rw [packFives, List.headD_cons, List.tail_cons, fives_succ, hhigh, fives_add_mul,
        ih hds (Nat.le_of_succ_le_succ hlength), List.take_succ_cons]

/-- The symbols of a packed text are those of the text and zeros behind them. -/
theorem unpack_pack (h : ∀ d ∈ ds, d < 32) (hlength : ds.length ≤ 13)
    (hlast : ∀ d, ds[12]? = some d → d ≤ 15) :
    unpack (pack ds) = ds ++ List.replicate (13 - ds.length) 0 := by
  -- With its zeros the text has all 13 places.
  suffices hfull : ∀ es : List Nat, es.length = 13 → (∀ d ∈ es, d < 32) →
      (∀ d, es[12]? = some d → d ≤ 15) → unpack (pack es) = es by
    rw [← pack_append_zeros (13 - ds.length)]
    apply hfull
    · rw [List.length_append, List.length_replicate]
      omega
    · intro d hd
      rcases List.mem_append.mp hd with hd | hd
      · exact h d hd
      · rw [List.eq_of_mem_replicate hd]
        decide
    · intro d hd
      rw [List.getElem?_append] at hd
      split at hd
      · exact hlast d hd
      · rw [List.eq_of_mem_replicate (List.mem_of_getElem? hd)]
        decide
  intro es hes hlt hfits
  have h12 : 12 < es.length := by omega
  have hle := hfits es[12] (List.getElem?_eq_getElem h12)
  have hdrop : es.drop 12 = [es[12]] := by
    rw [List.drop_eq_getElem_cons h12, List.drop_eq_nil_of_le (by omega)]
  have hpack : pack es = packFives 12 es * 16 + es[12] := by
    rw [pack, hdrop, List.headD_cons]
  have hdiv : pack es / 16 = packFives 12 es := by omega
  have hmod : pack es % 16 = es[12] := by omega
  rw [unpack_eq, hdiv, hmod, fives_packFives hlt (by omega), ← hdrop, List.take_append_drop]

theorem significant_eq (h : unpack v = ds ++ List.replicate k 0)
    (hlast : ∀ d, ds.getLast? = some d → d ≠ 0) : significant v = ds := by
  have hzeros : ∀ d ∈ List.replicate k 0, decide (d = 0) = true := by
    intro d hd
    exact decide_eq_true (List.eq_of_mem_replicate hd)
  rw [significant, h, List.reverse_append, List.reverse_replicate,
    List.dropWhile_append_of_pos hzeros]
  cases hds : ds.reverse with
  | nil => rw [List.reverse_eq_nil_iff.mp hds]; rfl
  | cons d rest =>
    have hd : d ≠ 0 := hlast d (by rw [List.getLast?_eq_head?_reverse, hds]; rfl)
    rw [List.dropWhile_cons_of_neg (by simpa using hd), ← hds, List.reverse_reverse]

theorem pack_lt (h : ∀ d ∈ ds, d < 32) (hlast : ∀ d, ds[12]? = some d → d ≤ 15) :
    pack ds < 2 ^ 64 := by
  have hfives := packFives_lt 12 h
  have hfour : (ds.drop 12).headD 0 ≤ 15 := by
    rw [List.headD_eq_head?_getD, List.head?_drop]
    cases hd : ds[12]? with
    | none => decide
    | some d => exact hlast d hd
  rw [pack]
  omega

/-- Whether values of symbols are those of a text that is a name. -/
structure IsValued (ds : List Nat) : Prop where
  length_le : ds.length ≤ 13
  lt : ∀ d ∈ ds, d < 32
  last : ∀ d, ds[12]? = some d → d ≤ 15
  not_zero : ∀ d, ds.getLast? = some d → d ≠ 0

theorem exists_isValued (h : parse s = .ok n) :
    ∃ ds, IsValued ds ∧ s.toList = ds.map symbol ∧ n.value.toNat = pack ds := by
  rw [parse] at h
  split at h
  · cases h
  rename_i hsize
  split at h
  · cases h
  rename_i hdot
  obtain ⟨ds, hds, rfl⟩ := Result.map_eq_ok.mp h
  obtain ⟨hs, hlt, hlast⟩ := symbolValues_eq_ok hds
  have hfour : ∀ d, ds[12]? = some d → d ≤ 15 := fun d hd => hlast 12 d hd (Nat.le_refl _)
  refine ⟨ds, ⟨?_, hlt, hfour, ?_⟩, hs, ?_⟩
  · have hascii : ∀ c ∈ ds.map symbol, c.toNat < 128 := by
      intro c hc
      obtain ⟨d, hd, rfl⟩ := List.mem_map.mp hc
      exact symbol_ascii (hlt d hd)
    have hbytes := Utf8.utf8ByteSize_ascii hascii
    rw [← hs, String.ofList_toList, hs, List.length_map] at hbytes
    omega
  · rintro d hd rfl
    rw [hs, List.getLast?_map, hd] at hdot
    exact hdot rfl
  · rw [UInt64.toNat_ofNat', Nat.mod_eq_of_lt (pack_lt hlt hfour)]

theorem IsValued.isSpelled (h : IsValued ds) : IsSpelled (ds.map symbol) where
  length_le := by
    rw [List.length_map]
    exact h.length_le
  symbols := by
    intro c hc
    obtain ⟨d, hd, rfl⟩ := List.mem_map.mp hc
    exact isSymbol_symbol (h.lt d hd)
  not_dot := by
    rw [List.getLast?_map]
    intro hdot
    obtain ⟨d, hd, hs⟩ := Option.map_eq_some_iff.mp hdot
    exact h.not_zero d hd ((symbol_eq_dot (h.lt d (List.mem_of_getLast? hd))).mp hs)
  last := by
    intro c hc
    rw [List.getElem?_map] at hc
    obtain ⟨d, hd, rfl⟩ := Option.map_eq_some_iff.mp hc
    have hlength := h.length_le
    obtain ⟨hlt, -⟩ := List.getElem?_eq_some_iff.mp hd
    have hend : ds.getLast? = some d := by
      rw [List.getLast?_eq_getElem?, show ds.length - 1 = 12 by omega, hd]
    exact (isLastSymbol_symbol (h.lt d (List.mem_of_getElem? hd))).mpr
      ⟨h.not_zero d hend, h.last d hd⟩

theorem text_of_parse (h : parse s = .ok n) : n.text = s := by
  obtain ⟨ds, hds, hs, hn⟩ := exists_isValued h
  have hchars : n.chars = ds.map symbol := by
    rw [chars_eq, hn, significant_eq (unpack_pack hds.lt hds.length_le hds.last) hds.not_zero]
  rw [text, hchars, ← hs, String.ofList_toList]

theorem exists_parse (h : IsSpelled s.toList) : ∃ n, parse s = .ok n := by
  have hvalues : ∃ ds, symbolValues s 0 s.toList = .ok ds := h.symbolValues_eq_ok
  obtain ⟨ds, hds⟩ := hvalues
  have hascii : ∀ c ∈ s.toList, c.toNat < 128 := by
    intro c hc
    obtain ⟨d, hd, rfl⟩ := exists_symbol (h.symbols c hc)
    exact symbol_ascii hd
  have hsize : ¬13 < s.utf8ByteSize := by
    have hbytes := Utf8.utf8ByteSize_ascii hascii
    have hlength := h.length_le
    rw [String.ofList_toList] at hbytes
    omega
  refine ⟨⟨UInt64.ofNat (pack ds)⟩, ?_⟩
  rw [parse, if_neg hsize, if_neg h.not_dot, hds]
  rfl

/-- A text is read as a name just if it is spelled like one, and then as the name whose text it is.
So what is read is printed as it was written, and the text of each 64-bit value is read as that
value. -/
theorem parse_eq_ok_iff_text_eq (s : String) :
    ((∃ n, parse s = .ok n) ↔ IsSpelled s.toList) ∧ ∀ n, parse s = .ok n ↔ n.text = s := by
  refine ⟨⟨?_, exists_parse⟩, fun n => ⟨text_of_parse, ?_⟩⟩
  · rintro ⟨n, h⟩
    obtain ⟨ds, hds, hs, -⟩ := exists_isValued h
    rw [hs]
    exact hds.isSpelled
  · rintro rfl
    exact parse_text n

end ChainKit.Name
