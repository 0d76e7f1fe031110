import ChainKit.Json.Basic
import ChainKit.Text.Decimal

namespace ChainKit.Json

structure Literal where
  negative : Bool
  whole : List Char
  fraction : List Char
  exponent : Option Int
deriving Repr

namespace Literal

def maxSignificand : Nat := 2 ^ 64 - 1

/-- Appends digits while they fit; returns the significand and the number of digits left over. -/
def takeWhole (s : Nat) : List Char → Nat × Nat
  | [] => (s, 0)
  | c :: cs =>
    let t := s * 10 + Decimal.digitValue c
    if maxSignificand < t then (s, cs.length + 1) else takeWhole t cs

def takeFraction (s places : Nat) : List Char → Nat × Nat
  | [] => (s, places)
  | c :: cs =>
    let t := s * 10 + Decimal.digitValue c
    if maxSignificand < t then (s, places) else takeFraction t (places + 1) cs

def powerOfTen (e : Nat) : Nat := BinaryFormat.double.round ⟨10 ^ e, 1⟩

def multiply (a b : Nat) : Nat :=
  BinaryFormat.double.round ((BinaryFormat.double.ratio a).mul (BinaryFormat.double.ratio b))

def divide (a b : Nat) : Nat :=
  BinaryFormat.double.round ((BinaryFormat.double.ratio a).div (BinaryFormat.double.ratio b))

/-- The magnitude bits of a significand scaled by a power of ten; `none` beyond the largest number.
Powers beyond the 308th are applied in two steps. -/
def scale? (significand : Nat) (e : Int) : Option Nat :=
  let f := BinaryFormat.double.round ⟨significand, 1⟩
  if significand = 0 then some 0
  else if 308 < e then none
  else if 0 ≤ e then
    let product := multiply f (powerOfTen e.toNat)
    if product = BinaryFormat.double.infinity then none else some product
  else if -308 ≤ e then some (divide f (powerOfTen (-e).toNat))
  else if -616 ≤ e then
    some (divide (divide f (powerOfTen 308)) (powerOfTen (-e - 308).toNat))
  else some 0

def float? (l : Literal) : Option Number :=
  let (s, skipped) := takeWhole 0 l.whole
  let (s, places) := takeFraction s 0 l.fraction
  (scale? s (l.exponent.getD 0 + skipped - places)).map fun bits =>
    .float (.ofParts l.negative bits)

def value? (l : Literal) : Option Number :=
  let n := Decimal.natOfDigits l.whole
  if l.fraction = [] ∧ l.exponent = none then
    if !l.negative ∧ n < 2 ^ 64 then some (.int n)
    else if l.negative ∧ n ≠ 0 ∧ n ≤ 2 ^ 63 then some (.int (-n))
    else l.float?
  else l.float?

end Literal
end ChainKit.Json
