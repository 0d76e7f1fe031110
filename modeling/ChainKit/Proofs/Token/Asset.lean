import ChainKit.Proofs.Token.Amount

namespace ChainKit.Asset
set_option autoImplicit true

variable {a : Asset}

theorem of_mem_magnitudeChars (h : c ∈ magnitudeChars p m) : c.isDigit ∨ c = '.' := by
  rw [magnitudeChars] at h
  split at h
  · exact .inl (Decimal.isDigit_of_mem_ofNat h)
  · rcases List.mem_append.1 h with h | h
    · exact .inl (Decimal.isDigit_of_mem_ofNat h)
    · rcases List.mem_cons.1 h with h | h
      · exact .inr h
      · exact .inl (Decimal.isDigit_of_mem_padded h)

theorem of_mem_amountChars (h : c ∈ amountChars p i) : c.isDigit ∨ c = '.' ∨ c = '-' := by
  rw [amountChars] at h
  rcases List.mem_append.1 h with h | h
  · split at h
    · exact .inr (.inr (List.mem_singleton.1 h))
    · cases h
  · exact (of_mem_magnitudeChars h).imp_right .inl

theorem space_not_mem_amountChars : ' ' ∉ amountChars p i := fun h => by
  rcases of_mem_amountChars h with h | h | h
  · cases h
  · cases h
  · cases h

theorem isBlank_amountChars (h : c ∈ amountChars p i) : Text.isBlank c = false := by
  rcases of_mem_amountChars h with h | rfl | rfl
  · exact Text.isBlank_digit h
  · decide
  · decide

theorem amountChars_cases (p : Nat) (i : Int) :
    (i < 0 ∧ amountChars p i = '-' :: magnitudeChars p i.natAbs) ∨
      (0 ≤ i ∧ amountChars p i = magnitudeChars p i.natAbs) := by
  rcases Int.lt_or_le i 0 with h | h
  · exact .inl ⟨h, by rw [amountChars, if_pos h]; rfl⟩
  · exact .inr ⟨h, by rw [amountChars, if_neg (by omega)]; rfl⟩

def written (p : Nat) (i : Int) : WrittenAmount where
  negative := i < 0
  whole := Decimal.ofNat (i.natAbs / 10 ^ p)
  fraction := if p = 0 then [] else Decimal.padded p (i.natAbs % 10 ^ p)

theorem chars_written (p : Nat) (i : Int) : (written p i).chars = amountChars p i := by
  have hunsigned : (written p i).unsigned = magnitudeChars p i.natAbs := by
    rw [WrittenAmount.unsigned, magnitudeChars]
    by_cases h0 : p = 0
    · simp [written, h0]
    · simp [written, h0, Decimal.padded_ne_nil]
  rcases amountChars_cases p i with ⟨hi, he⟩ | ⟨hi, he⟩
  · rw [he, WrittenAmount.chars, hunsigned]
    exact if_pos (decide_eq_true hi)
  · rw [he, WrittenAmount.chars, hunsigned]
    exact if_neg (by simpa [written] using hi)

theorem length_fraction_written (p : Nat) (i : Int) : (written p i).fraction.length = p := by
  by_cases h0 : p = 0
  · simp [written, h0]
  · have hlt : i.natAbs % 10 ^ p < 10 ^ p := Nat.mod_lt _ (Nat.pow_pos (by decide))
    simp [written, h0, Decimal.length_padded (Nat.pos_of_ne_zero h0) hlt]

theorem natOfDigits_written (p : Nat) (i : Int) :
    Decimal.natOfDigits (written p i).digits = i.natAbs := by
  rw [WrittenAmount.digits, Decimal.natOfDigits_append, length_fraction_written]
  by_cases h0 : p = 0
  · simp only [written, h0, Nat.pow_zero, Nat.div_one, Nat.mul_one, Decimal.natOfDigits_ofNat,
      if_true]
    rfl
  · simp [written, h0, Nat.div_add_mod']

theorem value_written (p : Nat) (i : Int) : (written p i).value = i := by
  have hnegative : (written p i).negative = decide (i < 0) := rfl
  rw [WrittenAmount.value, natOfDigits_written, hnegative]
  simp only [decide_eq_true_eq]
  split <;> omega

theorem isProper_written (hp : p ≤ 18) (hlow : -(2 ^ 63) ≤ i) (hhigh : i < 2 ^ 63) :
    (written p i).IsProper where
  whole_ne_nil := Decimal.ofNat_ne_nil _
  isDigit := by
    intro c hc
    rcases List.mem_append.mp hc with hc | hc
    · exact Decimal.isDigit_of_mem_ofNat hc
    · simp only [written] at hc
      split at hc
      · cases hc
      · exact Decimal.isDigit_of_mem_padded hc
  length_fraction_le := by rwa [length_fraction_written]
  low := by rwa [value_written]
  high := by rwa [value_written]

theorem parseAmount_amountChars (hp : p ≤ Token.maxPrecision) (hlow : -(2 ^ 63) ≤ i)
    (hhigh : i < 2 ^ 63) : parseAmount (amountChars p i) = .ok (i, p) :=
  parseAmount_eq_ok.mpr ⟨written p i, (chars_written p i).symm, isProper_written hp hlow hhigh,
    (value_written p i).symm, (length_fraction_written p i).symm⟩

theorem text?_eq_some (h : a.symbol.IsProper) :
    a.text? = some (String.ofList (amountChars a.symbol.precision a.amount.toInt) ++ " " ++
      a.symbol.code.text) := by
  have hp : a.symbol.precision ≤ 18 := h.1
  have hm : maxPrintedPrecision = 38 := rfl
  rw [text?, if_neg (by omega)]

theorem parse_eq_ok : parse s = .ok a ↔ ∃ amount rest c i p,
    Text.splitOnce? ' ' (Text.trim s.toList) = some (amount, rest) ∧
      SymbolCode.parseChars (Text.trim rest) = .ok c ∧ parseAmount amount = .ok (i, p) ∧
      Symbol.make p c = .ok a.symbol ∧ a.amount = Int64.ofInt i := by
  constructor
  · intro h
    rw [parse] at h
    split at h
    · cases h
    rename_i amount rest hsplit
    obtain ⟨c, hc, h⟩ := Result.bind_eq_ok.mp h
    obtain ⟨⟨i, p⟩, hamount, h⟩ := Result.bind_eq_ok.mp h
    obtain ⟨symbol, hsymbol, h⟩ := Result.bind_eq_ok.mp h
    cases h
    exact ⟨amount, rest, c, i, p, hsplit, hc, hamount, hsymbol, rfl⟩
  · rintro ⟨amount, rest, c, i, p, hsplit, hc, hamount, hsymbol, hvalue⟩
    rw [parse, hsplit]
    refine Result.bind_eq_ok.mpr ⟨c, hc, Result.bind_eq_ok.mpr ⟨(i, p), hamount, ?_⟩⟩
    refine Result.bind_eq_ok.mpr ⟨a.symbol, hsymbol, ?_⟩
    rw [← hvalue]
    rfl

theorem isProper_of_parse (h : parse s = .ok a) : a.symbol.IsProper := by
  obtain ⟨_, _, _, _, _, -, hc, -, hsymbol, -⟩ := parse_eq_ok.mp h
  exact Symbol.isProper_of_make hsymbol ⟨_, hc⟩

theorem parse_text (h : a.symbol.IsProper) : parse (a.text?.getD "") = .ok a := by
  rw [text?_eq_some h, Option.getD_some]
  obtain ⟨hp, cs, hcs⟩ := h
  have hne := (SymbolCode.parseChars_eq_ok hcs).1
  have hblank := SymbolCode.isBlank_letter hcs
  have hlist : (String.ofList (amountChars a.symbol.precision a.amount.toInt) ++ " " ++
      a.symbol.code.text).toList = amountChars a.symbol.precision a.amount.toInt ++ ' ' :: cs := by
    simp [SymbolCode.toList_text hcs]
  have htrim : Text.trim (amountChars a.symbol.precision a.amount.toInt ++ ' ' :: cs) =
      amountChars a.symbol.precision a.amount.toInt ++ ' ' :: cs := by
    refine Text.trim_eq (fun c hc => ?_) (fun c hc => ?_)
    · cases ha : amountChars a.symbol.precision a.amount.toInt with
      | nil =>
        have hm : magnitudeChars a.symbol.precision a.amount.toInt.natAbs ≠ [] := by
          rw [magnitudeChars]
          split <;> simp [Decimal.ofNat_ne_nil]
        rcases amountChars_cases a.symbol.precision a.amount.toInt with ⟨_, he⟩ | ⟨_, he⟩
        · rw [he] at ha; cases ha
        · exact absurd (he.symm.trans ha) hm
      | cons d rest =>
        rw [ha, List.cons_append, List.head?_cons, Option.some.injEq] at hc
        exact isBlank_amountChars (hc ▸ ha ▸ List.mem_cons_self)
    · rw [List.getLast?_append, List.getLast?_cons] at hc
      cases hl : cs.getLast? with
      | none => exact absurd (List.getLast?_eq_none_iff.1 hl) hne
      | some e =>
        rw [hl] at hc
        cases hc
        exact hblank _ (List.mem_of_getLast? hl)
  have hamount := parseAmount_amountChars hp a.amount.le_toInt a.amount.toInt_lt
  rw [parse, hlist, htrim, Text.splitOnce?_append space_not_mem_amountChars]
  simp only [Text.trim_of_all hblank, hcs, hamount, bind, Except.bind,
    Symbol.make_precision_code hp]
  simp [pure, Except.pure]

theorem space_not_mem_chars (h : WrittenAmount.IsProper w) : ' ' ∉ w.chars := by
  have hdigits : ' ' ∉ w.digits := fun hm => nomatch h.isDigit _ hm
  rw [WrittenAmount.digits, List.mem_append, not_or] at hdigits
  have hfraction : ' ' ∉ if w.fraction = [] then [] else '.' :: w.fraction := by
    split
    · exact List.not_mem_nil
    · simpa using hdigits.2
  have hunsigned : ' ' ∉ w.unsigned := by
    rw [WrittenAmount.unsigned, List.mem_append, not_or]
    exact ⟨hdigits.1, hfraction⟩
  rw [WrittenAmount.chars]
  split
  · simpa using hunsigned
  · exact hunsigned

/-- Whether an asset is written by characters: an amount, a space and the letters of the code, with
blanks about the letters, if there are any. -/
def IsWrittenBy (a : Asset) (cs : List Char) : Prop :=
  ∃ w rest, cs = WrittenAmount.chars w ++ ' ' :: rest ∧ w.IsProper ∧
    a.symbol.code.IsSpelledBy (Text.trim rest) ∧ a.amount.toInt = w.value ∧
    a.symbol.precision = w.fraction.length

theorem parse_iff_isWrittenBy : parse s = .ok a ↔ a.IsWrittenBy (Text.trim s.toList) := by
  rw [parse_eq_ok]
  constructor
  · rintro ⟨_, rest, c, _, _, hsplit, hc, hamount, hsymbol, hvalue⟩
    obtain ⟨w, rfl, hw, rfl, rfl⟩ := parseAmount_eq_ok.mp hamount
    obtain ⟨hprecision, hcode⟩ := Symbol.make_eq_ok hsymbol ⟨_, hc⟩
    refine ⟨w, rest, (Text.splitOnce?_eq_some hsplit).1, hw, ?_, ?_, hprecision⟩
    · rw [hcode]
      exact SymbolCode.parseChars_iff.mp hc
    · rw [hvalue]
      exact Int64.toInt_ofInt_of_le hw.low hw.high
  · rintro ⟨w, rest, htrim, hw, hcode, hvalue, hprecision⟩
    have hsplit : Text.splitOnce? ' ' (w.chars ++ ' ' :: rest) = some (w.chars, rest) :=
      Text.splitOnce?_append (space_not_mem_chars hw)
    refine ⟨w.chars, rest, a.symbol.code, w.value, w.fraction.length, htrim ▸ hsplit,
      SymbolCode.parseChars_iff.mpr hcode, parseAmount_eq_ok.mpr ⟨w, rfl, hw, rfl, rfl⟩, ?_, ?_⟩
    · rw [← hprecision]
      exact Symbol.make_precision_code (hprecision ▸ hw.length_fraction_le)
    · rw [← hvalue, Int64.ofInt_toInt]

theorem exists_parse (h : Text.trim s.toList = WrittenAmount.chars w ++ ' ' :: rest)
    (hw : w.IsProper) (hrest : SymbolCode.IsText (Text.trim rest)) : ∃ a, parse s = .ok a := by
  obtain ⟨c, hc⟩ := hrest.exists_parseChars
  have hprecision : ¬Token.maxPrecision < w.fraction.length := Nat.not_lt.mpr hw.length_fraction_le
  obtain ⟨symbol, hsymbol⟩ : ∃ symbol, Symbol.make w.fraction.length c = .ok symbol :=
    ⟨_, if_neg hprecision⟩
  refine ⟨⟨.ofInt w.value, symbol⟩, parse_eq_ok.mpr ⟨w.chars, rest, c, w.value,
    w.fraction.length, ?_, hc, parseAmount_eq_ok.mpr ⟨w, rfl, hw, rfl, rfl⟩, hsymbol, rfl⟩⟩
  rw [h]
  exact Text.splitOnce?_append (space_not_mem_chars hw)

/-- Which texts are assets, which asset each of them is, and that the text of every asset of at most
18 decimal places and one to seven letters is one of them and is that asset. -/
theorem parse_exact :
    (∀ s, (∃ a, parse s = .ok a) ↔ ∃ w rest,
      Text.trim s.toList = WrittenAmount.chars w ++ ' ' :: rest ∧ w.IsProper ∧
        SymbolCode.IsText (Text.trim rest)) ∧
    (∀ s a, parse s = .ok a ↔ a.IsWrittenBy (Text.trim s.toList)) ∧
    ∀ (amount : Int64) (p : Nat) (code : SymbolCode) (letters : List Char),
      p ≤ 18 → code.IsSpelledBy letters → ∃ symbol t,
        Symbol.make p code = .ok symbol ∧ symbol.precision = p ∧ symbol.code = code ∧
          text? ⟨amount, symbol⟩ = some t ∧ parse t = .ok ⟨amount, symbol⟩ := by
  refine ⟨fun s => ⟨?_, ?_⟩, fun s a => parse_iff_isWrittenBy, ?_⟩
  · rintro ⟨a, h⟩
    obtain ⟨w, rest, htrim, hw, hcode, -, -⟩ := parse_iff_isWrittenBy.mp h
    exact ⟨w, rest, htrim, hw, hcode.toIsText⟩
  · rintro ⟨w, rest, htrim, hw, hrest⟩
    exact exists_parse htrim hw hrest
  · intro amount p code letters hp hcode
    have hlettered : code.IsLettered := ⟨letters, SymbolCode.parseChars_iff.mpr hcode⟩
    obtain ⟨symbol, hsymbol⟩ : ∃ symbol, Symbol.make p code = .ok symbol :=
      ⟨_, if_neg (Nat.not_lt.mpr hp)⟩
    obtain ⟨hprecision, hsymbolCode⟩ := Symbol.make_eq_ok hsymbol hlettered
    have hproper := Symbol.isProper_of_make hsymbol hlettered
    have htext := text?_eq_some (a := ⟨amount, symbol⟩) hproper
    have hparse := parse_text (a := ⟨amount, symbol⟩) hproper
    rw [htext, Option.getD_some] at hparse
    exact ⟨symbol, _, hsymbol, hprecision, hsymbolCode, htext, hparse⟩

example : (parse "-92233720368547758.08  TKN ").toOption.map text? =
      some (some "-92233720368547758.08 TKN") ∧
    (parse "-92233720368547758.09 TKN").toOption.map text? = none := by
  decide +kernel

end ChainKit.Asset
