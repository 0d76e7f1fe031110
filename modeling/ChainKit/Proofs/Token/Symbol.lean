import ChainKit.Proofs.Text.Decimal
import ChainKit.Token.Symbol

namespace ChainKit

namespace Bytes
set_option autoImplicit true

theorem ofNatLE_zero (k : Nat) : ofNatLE k 0 = List.replicate k 0 := by
  induction k with
  | zero => rfl
  | succ k ih => rw [ofNatLE, Nat.zero_div, ih]; rfl

theorem ofNatLE_add_toNatLE (bs : Bytes) (k : Nat) :
    ofNatLE (bs.length + k) (toNatLE bs) = bs ++ List.replicate k 0 := by
  induction bs with
  | nil => rw [List.length_nil, Nat.zero_add]; exact ofNatLE_zero k
  | cons b bs ih =>
    have hb := b.toNat_lt
    have hlow : UInt8.ofNat (b.toNat + 256 * toNatLE bs) = b := by
      apply UInt8.toNat.inj
      simp only [UInt8.toNat_ofNat']
      omega
    have hhigh : (b.toNat + 256 * toNatLE bs) / 256 = toNatLE bs := by omega
    rw [List.length_cons, Nat.add_right_comm, ofNatLE, toNatLE, hlow, hhigh, ih, List.cons_append]

end Bytes

namespace Text
set_option autoImplicit true

theorem splitOnce?_append (h : sep ∉ cs) : splitOnce? sep (cs ++ sep :: ds) = some (cs, ds) := by
  induction cs with
  | nil => simp [splitOnce?]
  | cons c cs ih =>
    have hc : c ≠ sep := fun he => h (he ▸ List.mem_cons_self)
    have hcs := ih fun hm => h (List.mem_cons_of_mem _ hm)
    rw [List.cons_append, splitOnce?, if_neg hc, hcs]
    rfl

theorem splitOnce?_eq_none (h : sep ∉ cs) : splitOnce? sep cs = none := by
  induction cs with
  | nil => rfl
  | cons c cs ih =>
    have hc : c ≠ sep := fun he => h (he ▸ List.mem_cons_self)
    rw [splitOnce?, if_neg hc, ih fun hm => h (List.mem_cons_of_mem _ hm)]
    rfl

theorem splitOnce?_eq_some (h : splitOnce? sep cs = some (before, after)) :
    cs = before ++ sep :: after ∧ sep ∉ before := by
  induction cs generalizing before with
  | nil => cases h
  | cons c cs ih =>
    rw [splitOnce?] at h
    split at h
    · rename_i hc
      cases h
      exact ⟨hc ▸ rfl, List.not_mem_nil⟩
    · rename_i hc
      obtain ⟨⟨front, back⟩, hcs, hpair⟩ := Option.map_eq_some_iff.mp h
      cases hpair
      obtain ⟨rfl, hmem⟩ := ih hcs
      refine ⟨rfl, fun hm => ?_⟩
      rcases List.mem_cons.mp hm with rfl | hm
      · exact hc rfl
      · exact hmem hm

end Text

namespace SymbolCode
set_option autoImplicit true

/-- Whether the code is that of one to seven capital letters. -/
def IsLettered (c : SymbolCode) : Prop := ∃ cs, parseChars cs = .ok c

theorem isCapital_iff (c : Char) : ('A' ≤ c ∧ c ≤ 'Z') ↔ 65 ≤ c.toNat ∧ c.toNat ≤ 90 := by
  simp only [Char.le_def, UInt32.le_iff_toNat_le]
  rfl

theorem parseChars_eq_ok (h : parseChars cs = .ok c) :
    cs ≠ [] ∧ cs.length ≤ 7 ∧ (∀ d ∈ cs, 65 ≤ d.toNat ∧ d.toNat ≤ 90) ∧
      c = ⟨UInt64.ofNat (Bytes.toNatLE (cs.map fun d => UInt8.ofNat d.toNat))⟩ := by
  rw [parseChars] at h
  split at h
  · rename_i hcs
    refine ⟨hcs.1, hcs.2.1, fun d hd => ?_, (Except.ok.inj h).symm⟩
    exact (isCapital_iff d).1 (by simpa using List.all_eq_true.1 hcs.2.2 d hd)
  · cases h

theorem value_lt (h : parseChars cs = .ok c) :
    c.value.toNat = Bytes.toNatLE (cs.map fun d => UInt8.ofNat d.toNat) ∧
      c.value.toNat < 256 ^ 7 := by
  obtain ⟨_, hlen, _, rfl⟩ := parseChars_eq_ok h
  have hlt := Bytes.toNatLE_lt (cs.map fun d => UInt8.ofNat d.toNat)
  have hpow : 256 ^ (cs.map fun d => UInt8.ofNat d.toNat).length ≤ 256 ^ 7 :=
    Nat.pow_le_pow_right (by decide) (by simpa using hlen)
  have hn : (UInt64.ofNat (Bytes.toNatLE (cs.map fun d => UInt8.ofNat d.toNat))).toNat =
      Bytes.toNatLE (cs.map fun d => UInt8.ofNat d.toNat) := by
    rw [UInt64.toNat_ofNat']
    omega
  exact ⟨hn, by rw [hn]; omega⟩

theorem letters_eq (h : parseChars cs = .ok c) :
    c.letters = cs.map fun d => UInt8.ofNat d.toNat := by
  obtain ⟨_, hlen, hcap, _⟩ := parseChars_eq_ok h
  have hz := Bytes.ofNatLE_add_toNatLE (cs.map fun d => UInt8.ofNat d.toNat) (8 - cs.length)
  rw [List.length_map, show cs.length + (8 - cs.length) = 8 by omega] at hz
  rw [letters, (value_lt h).1, hz, List.takeWhile_append_of_pos]
  · cases 8 - cs.length <;> simp [List.replicate_succ]
  · intro b hb
    obtain ⟨d, hd, rfl⟩ := List.mem_map.1 hb
    have := hcap d hd
    refine decide_eq_true fun he => ?_
    have h0 := congrArg UInt8.toNat he
    rw [UInt8.toNat_ofNat', UInt8.toNat_zero] at h0
    omega

theorem toList_text (h : parseChars cs = .ok c) : c.text.toList = cs := by
  obtain ⟨_, _, hcap, _⟩ := parseChars_eq_ok h
  rw [text, String.toList_ofList, letters_eq h, List.map_map]
  refine (List.map_congr_left fun d hd => ?_).trans (List.map_id cs)
  have := hcap d hd
  rw [Function.comp_apply, UInt8.toNat_ofNat', Nat.mod_eq_of_lt (by omega), Char.ofNat_toNat]
  rfl

theorem IsLettered.parse_text (h : IsLettered c) : parse c.text = .ok c := by
  obtain ⟨cs, h⟩ := h
  rw [parse, toList_text h, h]

theorem isBlank_letter (h : parseChars cs = .ok c) : ∀ d ∈ cs, Text.isBlank d = false := by
  intro d hd
  have := (parseChars_eq_ok h).2.2.1 d hd
  exact Text.isBlank_graphic (by omega)

theorem isCapital_iff_toNat {b : UInt8} : isCapital b ↔ 65 ≤ b.toNat ∧ b.toNat ≤ 90 := by
  simp [isCapital, UInt8.le_iff_toNat_le]

theorem bytes_eq (c : SymbolCode) : Bytes.ofNatLE 8 c.value.toNat =
    c.letters ++ (Bytes.ofNatLE 8 c.value.toNat).drop c.letters.length := by
  have htake : c.letters = (Bytes.ofNatLE 8 c.value.toNat).take c.letters.length :=
    List.prefix_iff_eq_take.mp (List.takeWhile_prefix _)
  have hsplit := (List.take_append_drop c.letters.length (Bytes.ofNatLE 8 c.value.toNat)).symm
  rwa [← htake] at hsplit

theorem length_letters_le (c : SymbolCode) : c.letters.length ≤ 8 := by
  have hle : c.letters.length ≤ (Bytes.ofNatLE 8 c.value.toNat).length :=
    (List.takeWhile_prefix _).length_le
  rwa [Bytes.length_ofNatLE] at hle

theorem isValid_iff {c : SymbolCode} : c.isValid ↔
    (∀ b ∈ c.letters, isCapital b) ∧ c.value ≠ 0 ∧
      Bytes.ofNatLE 8 c.value.toNat = c.letters ++ List.replicate (8 - c.letters.length) 0 := by
  have hzeros : ((Bytes.ofNatLE 8 c.value.toNat).drop c.letters.length).all (· = 0) ↔
      (Bytes.ofNatLE 8 c.value.toNat).drop c.letters.length =
        List.replicate (8 - c.letters.length) 0 := by
    rw [List.eq_replicate_iff, List.length_drop, Bytes.length_ofNatLE]
    simp
  rw [isValid, Bool.and_eq_true, Bool.and_eq_true, List.all_eq_true, decide_eq_true_eq, hzeros,
    and_assoc, c.bytes_eq, List.append_right_inj]
  rw [← c.bytes_eq]

theorem value_eq {c : SymbolCode} (h : c.isValid) : c.value.toNat = Bytes.toNatLE c.letters := by
  obtain ⟨-, -, hbytes⟩ := isValid_iff.mp h
  have hlen := c.length_letters_le
  have hspelled := Bytes.ofNatLE_add_toNatLE c.letters (8 - c.letters.length)
  rw [Nat.add_sub_of_le hlen, ← hbytes] at hspelled
  have hvalue := congrArg Bytes.toNatLE hspelled
  have hlt : Bytes.toNatLE c.letters < 256 ^ 8 :=
    Nat.lt_of_lt_of_le (Bytes.toNatLE_lt _) (Nat.pow_le_pow_right (by decide) hlen)
  rw [Bytes.toNatLE_ofNatLE, Bytes.toNatLE_ofNatLE, Nat.mod_eq_of_lt hlt,
    Nat.mod_eq_of_lt c.value.toNat_lt] at hvalue
  exact hvalue.symm

theorem letters_ne_nil {c : SymbolCode} (h : c.isValid) : c.letters ≠ [] := by
  intro hnil
  have hvalue := value_eq h
  rw [hnil] at hvalue
  exact (isValid_iff.mp h).2.1 (UInt64.toNat.inj hvalue)

theorem isValid_of_parseChars (h : parseChars cs = .ok c) :
    c.isValid ∧ c.letters.length ≤ 7 := by
  obtain ⟨hne, hlen, hcap, -⟩ := parseChars_eq_ok h
  have hletters := letters_eq h
  have hvalue : c.value.toNat = Bytes.toNatLE c.letters := by rw [hletters, (value_lt h).1]
  have hlength : c.letters.length ≤ 7 := by rwa [hletters, List.length_map]
  have hcapital : ∀ b ∈ c.letters, isCapital b := by
    intro b hb
    rw [hletters] at hb
    obtain ⟨d, hd, rfl⟩ := List.mem_map.mp hb
    have := hcap d hd
    rw [isCapital_iff_toNat, UInt8.toNat_ofNat', Nat.mod_eq_of_lt (by omega)]
    exact this
  refine ⟨isValid_iff.mpr ⟨hcapital, ?_, ?_⟩, hlength⟩
  · intro hzero
    obtain ⟨d, ds, hds⟩ := List.exists_cons_of_ne_nil hne
    rw [hds, List.map_cons] at hletters
    have := isCapital_iff_toNat.mp (hcapital (UInt8.ofNat d.toNat) (by simp [hletters]))
    rw [hzero, hletters, Bytes.toNatLE, UInt64.toNat_zero] at hvalue
    omega
  · have hspelled := Bytes.ofNatLE_add_toNatLE c.letters (8 - c.letters.length)
    rwa [Nat.add_sub_of_le (by omega), ← hvalue] at hspelled

theorem parse_text_of_isValid {c : SymbolCode} (h : c.isValid) (hlen : c.letters.length ≤ 7) :
    parse c.text = .ok c := by
  have hascii : ∀ n, n < 128 → (Char.ofNat n).toNat = n := by decide
  have hchar : ∀ b ∈ c.letters, (Char.ofNat b.toNat).toNat = b.toNat ∧
      ('A' ≤ Char.ofNat b.toNat ∧ Char.ofNat b.toNat ≤ 'Z') := by
    intro b hb
    have hb := isCapital_iff_toNat.mp ((isValid_iff.mp h).1 b hb)
    have hn := hascii b.toNat (by omega)
    rw [isCapital_iff, hn]
    exact ⟨rfl, hb⟩
  have hbytes : (c.letters.map fun b => Char.ofNat b.toNat).map
      (fun d => UInt8.ofNat d.toNat) = c.letters := by
    rw [List.map_map]
    refine (List.map_congr_left fun b hb => ?_).trans (List.map_id _)
    rw [Function.comp_apply, (hchar b hb).1, UInt8.ofNat_toNat]
    rfl
  have hall : (c.letters.map fun b => Char.ofNat b.toNat).all
      (fun d => 'A' ≤ d ∧ d ≤ 'Z') := by
    rw [List.all_map, List.all_eq_true]
    exact fun b hb => decide_eq_true (hchar b hb).2
  have hne := letters_ne_nil h
  rw [parse, text, String.toList_ofList, parseChars, hbytes, ← value_eq h, UInt64.ofNat_toNat]
  exact if_pos ⟨by simpa using hne, by simpa using hlen, hall⟩

theorem length_letters_of_lt {c : SymbolCode} (h : c.value.toNat < 256 ^ 7) :
    c.letters.length ≤ 7 := by
  have hbytes := Bytes.ofNatLE_add_toNatLE (Bytes.ofNatLE 7 c.value.toNat) 1
  rw [Bytes.length_ofNatLE, Bytes.toNatLE_ofNatLE, Nat.mod_eq_of_lt h] at hbytes
  have hzero : ([0] : Bytes).takeWhile (· ≠ 0) = [] := rfl
  rw [letters, hbytes, List.replicate_one, List.takeWhile_append, hzero]
  split
  · simp
  · exact Nat.le_trans (List.takeWhile_prefix _).length_le
      (Nat.le_of_eq (Bytes.length_ofNatLE ..))

theorem isLettered_iff {c : SymbolCode} : c.IsLettered ↔ c.isValid ∧ c.letters.length ≤ 7 := by
  constructor
  · rintro ⟨cs, h⟩
    exact isValid_of_parseChars h
  · rintro ⟨hvalid, hlen⟩
    exact ⟨c.text.toList, parse_text_of_isValid hvalid hlen⟩

/-- Whether letters are those of a code: one to seven capital letters. -/
structure IsText (letters : List Char) : Prop where
  ne_nil : letters ≠ []
  length_le : letters.length ≤ 7
  capital : ∀ d ∈ letters, 'A' ≤ d ∧ d ≤ 'Z'

/-- Whether letters are those of this code: they are its bytes, with zero bytes behind them. -/
structure IsSpelledBy (c : SymbolCode) (letters : List Char) : Prop extends IsText letters where
  bytes : Bytes.ofNatLE 8 c.value.toNat =
    letters.map (fun d => UInt8.ofNat d.toNat) ++ List.replicate (8 - letters.length) 0

theorem IsText.exists_parseChars (h : IsText cs) : ∃ c, parseChars cs = .ok c := by
  have hall : cs.all (fun d => 'A' ≤ d ∧ d ≤ 'Z') :=
    List.all_eq_true.mpr fun d hd => decide_eq_true (h.capital d hd)
  exact ⟨_, if_pos ⟨h.ne_nil, h.length_le, hall⟩⟩

theorem parseChars_iff : parseChars cs = .ok c ↔ c.IsSpelledBy cs := by
  have hspelled (hlen : cs.length ≤ 7) :=
    Bytes.ofNatLE_add_toNatLE (cs.map fun d => UInt8.ofNat d.toNat) (8 - cs.length)
  simp only [List.length_map] at hspelled
  have hbytes {c : SymbolCode} (h : parseChars cs = .ok c) : c.IsSpelledBy cs := by
    obtain ⟨hne, hlen, hcap, -⟩ := parseChars_eq_ok h
    refine ⟨⟨hne, hlen, fun d hd => (isCapital_iff d).mpr (hcap d hd)⟩, ?_⟩
    rw [(value_lt h).1, ← hspelled hlen, Nat.add_sub_of_le (by omega)]
  refine ⟨hbytes, fun h => ?_⟩
  -- The letters are read as a code with the same bytes, and there is no other one.
  obtain ⟨c', hc'⟩ := h.exists_parseChars
  have hvalue := congrArg Bytes.toNatLE ((hbytes hc').bytes.trans h.bytes.symm)
  rw [Bytes.toNatLE_ofNatLE, Bytes.toNatLE_ofNatLE, Nat.mod_eq_of_lt c.value.toNat_lt,
    Nat.mod_eq_of_lt c'.value.toNat_lt] at hvalue
  rw [hc']
  exact congrArg (fun v => Except.ok (SymbolCode.mk v)) (UInt64.toNat.inj hvalue)

end SymbolCode

namespace Symbol
set_option autoImplicit true

/-- Whether the symbol has a text that reads back. -/
def IsProper (s : Symbol) : Prop := s.precision ≤ Token.maxPrecision ∧ s.code.IsLettered

theorem value_code (s : Symbol) : s.code.value.toNat = s.value.toNat / 256 := by
  have := s.value.toNat_lt
  rw [code, UInt64.toNat_ofNat']
  omega

theorem make_precision_code (h : s.precision ≤ Token.maxPrecision) :
    make s.precision s.code = .ok s := by
  rw [make, if_neg (by omega), s.value_code, precision, Nat.mod_add_div, UInt64.ofNat_toNat]

theorem make_eq_ok (h : make p c = .ok s) (hc : c.IsLettered) : s.precision = p ∧ s.code = c := by
  obtain ⟨cs, hcs⟩ := hc
  have hlt := (SymbolCode.value_lt hcs).2
  rw [make] at h
  split at h
  · cases h
  · rename_i hp
    cases h
    have hp' : p ≤ 18 := Nat.le_of_not_lt hp
    have hn : (UInt64.ofNat (p + 256 * c.value.toNat)).toNat = p + 256 * c.value.toNat := by
      rw [UInt64.toNat_ofNat']
      omega
    refine ⟨by rw [precision, hn]; omega, ?_⟩
    have hdiv : (p + 256 * c.value.toNat) / 256 = c.value.toNat := by omega
    rw [code, hn, hdiv, UInt64.ofNat_toNat]

theorem isProper_of_make (h : make p c = .ok s) (hc : c.IsLettered) : s.IsProper := by
  obtain ⟨hp, hs⟩ := make_eq_ok h hc
  refine ⟨?_, hs ▸ hc⟩
  rw [make] at h
  split at h
  · cases h
  · omega

theorem isProper_of_parse (h : parse str = .ok s) : s.IsProper := by
  simp only [parse] at h
  split at h
  · cases h
  · split at h
    · cases h
    · rename_i p _
      cases hc : SymbolCode.parseChars ‹_› with
      | error e => rw [hc] at h; cases h
      | ok c =>
        rw [hc] at h
        exact isProper_of_make h ⟨_, hc⟩

theorem IsProper.parse_text (h : IsProper s) : parse s.text = .ok s := by
  obtain ⟨hp, cs, hcs⟩ := h
  have hlist : s.text.toList = Decimal.ofNat s.precision ++ ',' :: cs := by
    simp [text, Decimal.showNat, SymbolCode.toList_text hcs]
  have hcomma : ',' ∉ Decimal.ofNat s.precision := fun hm => by
    have hd : ','.isDigit := Decimal.isDigit_of_mem_ofNat hm
    cases hd
  have htrim : Text.trim (Decimal.ofNat s.precision ++ ',' :: cs) =
      Decimal.ofNat s.precision ++ ',' :: cs := by
    refine Text.trim_of_all fun c hc => ?_
    rcases List.mem_append.1 hc with hc | hc
    · exact Text.isBlank_digit (Decimal.isDigit_of_mem_ofNat hc)
    · rcases List.mem_cons.1 hc with rfl | hc
      · decide
      · exact SymbolCode.isBlank_letter hcs c hc
  have hnum : (Decimal.nat? (Decimal.ofNat s.precision)).filter (· < 256) = some s.precision := by
    have : s.precision < 256 := Nat.mod_lt _ (by decide)
    simp [Decimal.nat?_ofNat, this]
  rw [parse, hlist, htrim, Text.splitOnce?_append hcomma]
  simp only [hnum, hcs]
  exact make_precision_code hp

theorem length_letters_code (s : Symbol) : s.code.letters.length ≤ 7 := by
  have := s.value.toNat_lt
  have := s.value_code
  exact SymbolCode.length_letters_of_lt (by omega)

theorem isProper_iff {s : Symbol} :
    s.IsProper ↔ s.precision ≤ Token.maxPrecision ∧ s.code.isValid := by
  rw [IsProper, SymbolCode.isLettered_iff]
  exact and_congr_right fun _ => and_iff_left s.length_letters_code

theorem parse_text_iff {s : Symbol} : parse s.text = .ok s ↔ s.IsProper := by
  constructor
  · intro h
    exact isProper_of_parse h
  · intro h
    exact h.parse_text

theorem exists_make (c : SymbolCode) (h : p ≤ Token.maxPrecision) :
    ∃ s, make p c = .ok s ∧ s.precision = p ∧ s.code.value.toNat = c.value.toNat % 2 ^ 56 := by
  have hp : p ≤ 18 := h
  have hvalue : (UInt64.ofNat (p + 256 * c.value.toNat)).toNat =
      (p + 256 * c.value.toNat) % 2 ^ 64 := UInt64.toNat_ofNat'
  exists ⟨UInt64.ofNat (p + 256 * c.value.toNat)⟩
  rw [make, if_neg (by omega), value_code, precision, hvalue]
  exact ⟨rfl, by omega, by omega⟩

/-- A code is the one that its text spells just if it passes the check of its bytes and leaves the
high byte free. With up to 18 decimal places a symbol is made of every code: it has these decimal
places, it has this code just if the high byte is free, and its text reads back just if the code
that it has passes the check. -/
theorem validity_exact (c : SymbolCode) :
    (SymbolCode.parse c.text = .ok c ↔ c.isValid ∧ c.value.toNat < 2 ^ 56) ∧
      ∀ p ≤ 18, ∃ s, make p c = .ok s ∧ s.precision = p ∧
        (s.code = c ↔ c.value.toNat < 2 ^ 56) ∧ (parse s.text = .ok s ↔ s.code.isValid) := by
  constructor
  · constructor
    · intro h
      exact ⟨(SymbolCode.isValid_of_parseChars h).1, (SymbolCode.value_lt h).2⟩
    · intro ⟨hvalid, hlt⟩
      exact SymbolCode.parse_text_of_isValid hvalid (SymbolCode.length_letters_of_lt hlt)
  · intro p hp
    obtain ⟨s, hmake, hprecision, hcode⟩ := exists_make c hp
    have hlow : s.code = c ↔ c.value.toNat < 2 ^ 56 := by
      constructor
      · intro h
        rw [h] at hcode
        omega
      · intro h
        rw [Nat.mod_eq_of_lt h] at hcode
        exact congrArg SymbolCode.mk (UInt64.toNat.inj hcode)
    have htext : parse s.text = .ok s ↔ s.code.isValid := by
      rw [parse_text_iff, isProper_iff, hprecision]
      exact and_iff_right hp
    exact ⟨s, hmake, hprecision, hlow, htext⟩

def eightLetters : SymbolCode := ⟨0x4847464544434241⟩

/-- Eight letters pass the check of the bytes, although they are not read as a code, and a symbol
does not keep the last of them. -/
theorem isValid_eightLetters : eightLetters.isValid ∧
    SymbolCode.parse eightLetters.text = .error (.code "ABCDEFGH") ∧
    (make 4 eightLetters).map text = .ok "4,ABCDEFG" :=
  ⟨rfl, rfl, rfl⟩

end Symbol
end ChainKit
