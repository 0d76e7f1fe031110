import ChainKit.Json.Parser
import ChainKit.Json.Printer
import ChainKit.Proofs.Number.Shortest
import Mathlib.Data.List.TakeDrop

namespace ChainKit

namespace Json.Literal

/-- Whether a literal has digits where JSON text needs them, and no zero in front of others. -/
structure IsProper (l : Literal) : Prop where
  nonempty : l.whole ≠ []
  whole : ∀ c ∈ l.whole, c.isDigit
  lead : l.whole.head? = some '0' → l.whole = ['0']
  fraction : ∀ c ∈ l.fraction, c.isDigit

theorem IsProper.exists_digit {l : Literal} (h : l.IsProper) :
    ∃ c cs, l.whole = c :: cs ∧ c.isDigit := by
  obtain ⟨c, cs, hwhole⟩ := List.exists_cons_of_ne_nil h.nonempty
  exact ⟨c, cs, hwhole, h.whole c (hwhole ▸ List.mem_cons_self)⟩

def writeFraction (ds : List Char) : List Char := if ds.isEmpty then [] else '.' :: ds

def writeExponent : Option Int → List Char
  | none => []
  | some e => 'e' :: (if e < 0 then '-' else '+') :: Decimal.ofNat e.natAbs

def writeUnsigned (l : Literal) : List Char :=
  l.whole ++ writeFraction l.fraction ++ writeExponent l.exponent

def write (l : Literal) : List Char := (if l.negative then ['-'] else []) ++ l.writeUnsigned

end Json.Literal

namespace NumeralLayout
open Json

/-- The literal without exponent that is written for a numeral. -/
def positionalLiteral (l : NumeralLayout) (negative : Bool) (d : Numeral) : Literal :=
  let ds := Decimal.ofNat d.digits
  if 0 ≤ d.exponent then
    ⟨negative, ds ++ List.replicate d.exponent.toNat '0', if l.pointZero then ['0'] else [], none⟩
  else
    let places := (-d.exponent).toNat
    let ds := Decimal.padded (places + 1) d.digits
    ⟨negative, ds.take (ds.length - places), ds.drop (ds.length - places), none⟩

def scientificLiteral (negative : Bool) (d : Numeral) : Literal :=
  let ds := Decimal.ofNat d.digits
  ⟨negative, ds.take 1, ds.drop 1, some (d.exponent + (ds.length - 1 : Nat))⟩

def literal (l : NumeralLayout) (negative : Bool) (d : Numeral) : Literal :=
  if l.positional (d.exponent + ((Decimal.ofNat d.digits).length - 1 : Nat)) then
    l.positionalLiteral negative d
  else scientificLiteral negative d

variable (l : NumeralLayout) (negative : Bool) {d : Numeral}

theorem literal_negative : (l.literal negative d).negative = negative := by
  simp only [literal, positionalLiteral, scientificLiteral]
  split
  · split <;> rfl
  · rfl

theorem writePositional_eq :
    l.writePositional d = (l.positionalLiteral negative d).writeUnsigned := by
  simp only [writePositional, positionalLiteral]
  split
  · cases l.pointZero <;>
      simp [Literal.writeUnsigned, Literal.writeFraction, Literal.writeExponent]
  · have hlength := Decimal.length_padded_eq ((-d.exponent).toNat + 1) d.digits
    rw [Decimal.padded] at hlength ⊢
    generalize List.replicate _ '0' ++ Decimal.ofNat d.digits = ds at *
    have hdrop : (ds.drop (ds.length - (-d.exponent).toNat)).isEmpty = false := by
      rw [List.isEmpty_eq_false_iff, ← List.length_pos_iff, List.length_drop]
      omega
    simp only [Literal.writeUnsigned, Literal.writeFraction, hdrop, Literal.writeExponent,
      List.append_nil]
    rfl

theorem write_eq : l.write d = (l.literal negative d).writeUnsigned := by
  simp only [write, literal]
  split
  · exact l.writePositional_eq negative
  · rfl

variable {l}

theorem isProper_point (h : d.digits = 0 → d.exponent = 0) {fraction : List Char}
    (hfraction : ∀ c ∈ fraction, c.isDigit) :
    Literal.IsProper ⟨negative, Decimal.ofNat d.digits ++ List.replicate d.exponent.toNat '0',
      fraction, none⟩ where
  nonempty := List.append_ne_nil_of_left_ne_nil (Decimal.ofNat_ne_nil _) _
  whole c hc := by
    rcases List.mem_append.mp hc with hc | hc
    · exact Decimal.isDigit_of_mem_ofNat hc
    · rw [List.eq_of_mem_replicate hc]
      rfl
  lead hhead := by
    have hdigits : d.digits = 0 := by
      apply Decimal.eq_zero_of_head?
      rwa [Decimal.head?_ofNat_append] at hhead
    simp only [hdigits, h hdigits]
    rfl
  fraction := hfraction

theorem isProper_take {ds : List Char} {k : Nat} (hne : ds ≠ []) (hds : ∀ c ∈ ds, c.isDigit)
    (hlead : ds.head? = some '0' → k = 0) (e : Option Int) :
    Literal.IsProper ⟨negative, ds.take (k + 1), ds.drop (k + 1), e⟩ := by
  cases ds with
  | nil => exact absurd rfl hne
  | cons c cs =>
    refine ⟨List.cons_ne_nil _ _, fun b hb => hds b (List.mem_of_mem_take hb), ?_,
      fun b hb => hds b (List.mem_of_mem_drop hb)⟩
    intro hhead
    cases hhead
    rw [hlead rfl]
    rfl

theorem isProper_places {places : Nat} (hplaces : 0 < places) {ds : List Char}
    (hds : Decimal.padded (places + 1) d.digits = ds) :
    Literal.IsProper
      ⟨negative, ds.take (ds.length - places), ds.drop (ds.length - places), none⟩ := by
  have hlength : ds.length = max (places + 1) (Decimal.ofNat d.digits).length := by
    rw [← hds, Decimal.length_padded_eq]
  obtain ⟨k, hk⟩ : ∃ k, ds.length - places = k + 1 := ⟨ds.length - places - 1, by omega⟩
  rw [hk]
  apply isProper_take
  · exact hds ▸ Decimal.padded_ne_nil _ _
  · exact fun c hc => Decimal.isDigit_of_mem_padded (hds ▸ hc)
  · intro hhead
    by_cases hshort : (Decimal.ofNat d.digits).length ≤ places
    · omega
    · -- without zeros in front, the first digit is that of the number
      rw [← hds, Decimal.padded_of_le (by omega)] at hhead
      rw [Decimal.eq_zero_of_head? hhead] at hshort
      exact absurd hplaces hshort

theorem isProper_positional (h : d.digits = 0 → d.exponent ≤ 0) :
    (l.positionalLiteral negative d).IsProper := by
  simp only [positionalLiteral]
  split
  · apply isProper_point
    · intro hdigits
      have hexponent := h hdigits
      omega
    · intro c hc
      split at hc
      · rw [List.mem_singleton.mp hc]
        rfl
      · cases hc
  · exact isProper_places negative (by omega) rfl

theorem isProper_scientific : (scientificLiteral negative d).IsProper :=
  isProper_take negative (Decimal.ofNat_ne_nil _) (fun _ => Decimal.isDigit_of_mem_ofNat)
    (fun _ => rfl) _

theorem isProper_literal (h : d.digits = 0 → d.exponent ≤ 0) :
    (l.literal negative d).IsProper := by
  rw [literal]
  split
  · exact isProper_positional negative h
  · exact isProper_scientific negative

end NumeralLayout

namespace Json.Number

/-- The literal that is written for a number. -/
def literal : Number → Literal
  | .int i => ⟨i < 0, Decimal.ofNat i.natAbs, [], none⟩
  | .float x => floatLayout.literal x.isNegative
      (BinaryFormat.double.shortest floatLayout.tie x.magnitude)

theorem write_eq (n : Number) : n.write = n.literal.write := by
  cases n with
  | int i =>
    have hunsigned : (literal (.int i)).writeUnsigned = Decimal.ofNat i.natAbs := by
      simp [literal, Literal.writeUnsigned, Literal.writeFraction, Literal.writeExponent]
    rw [Literal.write, hunsigned]
    cases i with
    | ofNat n => rfl
    | negSucc n =>
      have hneg : Int.negSucc n < 0 := Int.negSucc_lt_zero n
      simp only [literal, hneg, decide_true, if_true]
      rfl
  | float x =>
    simp only [write, Binary64.write, literal, Literal.write, NumeralLayout.literal_negative,
      ← NumeralLayout.write_eq]

theorem isProper_literal (n : Number) : n.literal.IsProper := by
  cases n with
  | int i =>
    refine ⟨Decimal.ofNat_ne_nil _, fun _ => Decimal.isDigit_of_mem_ofNat, ?_, nofun⟩
    intro hhead
    have hzero := Decimal.eq_zero_of_head? hhead
    simp only [literal, hzero]
    rfl
  | float x =>
    apply NumeralLayout.isProper_literal
    intro hdigits
    by_cases hbits : x.magnitude = 0
    · rw [hbits]
      exact Int.le_refl 0
    · exact absurd hdigits (Nat.ne_of_gt (BinaryFormat.digits_shortest_pos hbits))

theorem write_ne_nil (n : Number) : n.write ≠ [] := by
  rw [write_eq, Literal.write, Literal.writeUnsigned]
  simp [(isProper_literal n).nonempty]

end Json.Number

namespace Json.Parser

def NoDigit (cs : List Char) : Prop := ∀ c, cs.head? = some c → c.isDigit = false

/-- Whether a text is one that may stand behind a value: nothing, or what ends an item or a
member. -/
def Ends (cs : List Char) : Prop := ∀ c, cs.head? = some c → c = ',' ∨ c = ']' ∨ c = '\x7d'

variable {ds rest : List Char}

theorem Ends.noDigit (h : Ends rest) : NoDigit rest := by
  intro c hc
  rcases h c hc with rfl | rfl | rfl <;> rfl

theorem noDigit_cons {c : Char} (h : c.isDigit = false) (cs : List Char) : NoDigit (c :: cs) := by
  intro b hb
  cases hb
  exact h

theorem spanDigits_append (hds : ∀ c ∈ ds, c.isDigit) (h : NoDigit rest) :
    spanDigits (ds ++ rest) = (ds, rest) := by
  rw [spanDigits, List.span_eq_takeWhile_dropWhile, List.takeWhile_append_of_pos hds,
    List.dropWhile_append_of_pos hds]
  cases rest with
  | nil => simp
  | cons c cs => simp [h c rfl]

theorem digits?_append (hne : ds ≠ []) (hds : ∀ c ∈ ds, c.isDigit) (h : NoDigit rest) :
    digits? (ds ++ rest) = some (ds, rest) := by
  rw [digits?, spanDigits_append hds h]
  cases ds with
  | nil => exact absurd rfl hne
  | cons c cs => rfl

variable {l : Literal}

theorem whole?_append (hl : l.IsProper) (h : NoDigit rest) :
    whole? (l.whole ++ rest) = some (l.whole, rest) := by
  rw [whole?, digits?_append hl.nonempty hl.whole h]
  split
  · rename_i heq
    simp only [Option.some.injEq, Prod.mk.injEq] at heq
    have hlead := hl.lead (by rw [heq.1, List.head?_cons])
    rw [heq.1] at hlead
    cases hlead
  · rfl

theorem exponent?_append (h : Ends rest) (e : Option Int) :
    exponent? (Literal.writeExponent e ++ rest) = some (e, rest) := by
  cases e with
  | none =>
    cases rest with
    | nil => rfl
    | cons c cs => rcases h c rfl with rfl | rfl | rfl <;> rfl
  | some e =>
    have hds := digits?_append (Decimal.ofNat_ne_nil e.natAbs)
      (fun _ => Decimal.isDigit_of_mem_ofNat) h.noDigit
    by_cases he : e < 0
    · have hvalue : -(e.natAbs : Int) = e := by omega
      simp only [Literal.writeExponent, if_pos he, List.cons_append, exponent?, true_or, if_true,
        hds, Option.map_some, Decimal.natOfDigits_ofNat, hvalue]
    · have hvalue : (e.natAbs : Int) = e := by omega
      simp only [Literal.writeExponent, if_neg he, List.cons_append, exponent?, true_or, if_true,
        hds, Option.map_some, Decimal.natOfDigits_ofNat, hvalue]

theorem noDigit_exponent (h : Ends rest) (e : Option Int) :
    NoDigit (Literal.writeExponent e ++ rest) := by
  cases e with
  | none => exact h.noDigit
  | some e => exact noDigit_cons rfl _

theorem fraction?_exponent (h : Ends rest) (e : Option Int) :
    fraction? (Literal.writeExponent e ++ rest) = some ([], Literal.writeExponent e ++ rest) := by
  cases e with
  | none =>
    cases rest with
    | nil => rfl
    | cons c cs => rcases h c rfl with rfl | rfl | rfl <;> rfl
  | some e => rfl

theorem noDigit_fraction (hrest : NoDigit rest) (fraction : List Char) :
    NoDigit (Literal.writeFraction fraction ++ rest) := by
  cases fraction with
  | nil => exact hrest
  | cons c cs => exact noDigit_cons rfl _

theorem fraction?_append (hl : l.IsProper) (h : Ends rest) (e : Option Int) :
    fraction? (Literal.writeFraction l.fraction ++ (Literal.writeExponent e ++ rest)) =
      some (l.fraction, Literal.writeExponent e ++ rest) := by
  cases hfraction : l.fraction with
  | nil => exact fraction?_exponent h e
  | cons c cs =>
    exact digits?_append (List.cons_ne_nil c cs) (hfraction ▸ hl.fraction) (noDigit_exponent h e)

/-- What is written for a literal is read as the literal. -/
theorem number?_append (hl : l.IsProper) (h : Ends rest) :
    number? l.negative (l.writeUnsigned ++ rest) = some (.num l.value?, rest) := by
  have hexponent := noDigit_exponent h l.exponent
  have hwhole := whole?_append hl (noDigit_fraction hexponent l.fraction)
  simp only [number?, Literal.writeUnsigned, List.append_assoc, hwhole, Option.bind_eq_bind,
    Option.bind_some, fraction?_append hl h, exponent?_append h]
  rfl

end Json.Parser
end ChainKit
