import ChainKit.Number.Binary
import ChainKit.Text.Decimal

namespace ChainKit

structure Numeral where
  digits : Nat
  exponent : Int
deriving DecidableEq, Repr

namespace Numeral

def ratio (d : Numeral) : Ratio := .scaled d.digits d.exponent

def trimZeros : (fuel : Nat) → Numeral → Numeral
  | 0, d => d
  | fuel + 1, d =>
    if d.digits ≠ 0 ∧ d.digits % 10 = 0 then trimZeros fuel ⟨d.digits / 10, d.exponent + 1⟩ else d

end Numeral

namespace BinaryFormat

/-- The ratios that round to finite magnitude bits, as lower bound, upper bound, and whether the
bounds belong. -/
def interval (f : BinaryFormat) (bits : Nat) : Ratio × Ratio × Bool :=
  let (m, q) := f.parts bits
  let below := if m = 2 ^ (f.precision - 1) ∧ f.minExponent < q then 1 else 2
  (.shifted (4 * m - below) (q - 2), .shifted (4 * m + 2) (q - 2), m % 2 = 0)

def inInterval (i : Ratio × Ratio × Bool) (a : Ratio) : Bool :=
  if i.2.2 then i.1.le a && a.le i.2.1 else i.1.lt a && a.lt i.2.1

/-- The nearest numeral on one decimal grid that reads back as the bits, if any does; `tie` decides
between two equally near. -/
def onGrid? (f : BinaryFormat) (tie : Tie) (bits : Nat) (exponent : Int) : Option Numeral :=
  let v := f.ratio bits
  let position := v.div (.scaled 1 exponent)
  let low : Numeral := ⟨position.floor, exponent⟩
  let high : Numeral := ⟨position.floor + 1, exponent⟩
  let i := f.interval bits
  match inInterval i low.ratio, inInterval i high.ratio with
  | true, true => some (if position.nearest tie = low.digits then low else high)
  | true, false => some low
  | false, true => some high
  | false, false => none

/-- Tries ever finer grids from `exponent` down, `fuel` of them; without a hit the finest one's
floor. -/
def search (f : BinaryFormat) (tie : Tie) (bits : Nat) : (fuel : Nat) → (exponent : Int) → Numeral
  | 0, e => ⟨((f.ratio bits).div (.scaled 1 e)).floor, e⟩
  | fuel + 1, e => (f.onGrid? tie bits e).getD (search f tie bits fuel (e - 1))

def shortest (f : BinaryFormat) (tie : Tie) (bits : Nat) : Numeral :=
  if bits = 0 then ⟨0, 0⟩
  else (f.search tie bits 17 (f.ratio bits).floorLog10).trimZeros 17

end BinaryFormat

/-- How a number is written: which of two equally near numerals, the powers of ten of the first
digit that are written positionally, and whether whole numbers end in `.0`. -/
structure NumeralLayout where
  tie : Tie
  positional : Int → Bool
  pointZero : Bool

namespace NumeralLayout

def writePositional (l : NumeralLayout) (d : Numeral) : List Char :=
  let ds := Decimal.ofNat d.digits
  if 0 ≤ d.exponent then
    ds ++ List.replicate d.exponent.toNat '0' ++ (if l.pointZero then ['.', '0'] else [])
  else
    let places := (-d.exponent).toNat
    let ds := List.replicate (places + 1 - ds.length) '0' ++ ds
    ds.take (ds.length - places) ++ '.' :: ds.drop (ds.length - places)

def writeScientific (d : Numeral) : List Char :=
  let ds := Decimal.ofNat d.digits
  let e := d.exponent + (ds.length - 1 : Nat)
  let tail := ds.drop 1
  ds.take 1 ++ (if tail.isEmpty then [] else '.' :: tail) ++
    'e' :: (if e < 0 then '-' else '+') :: Decimal.ofNat e.natAbs

def write (l : NumeralLayout) (d : Numeral) : List Char :=
  if l.positional (d.exponent + ((Decimal.ofNat d.digits).length - 1 : Nat)) then
    l.writePositional d
  else writeScientific d

end NumeralLayout

namespace Binary64

def write (l : NumeralLayout) (x : Binary64) : List Char :=
  (if x.isNegative then ['-'] else []) ++ l.write (BinaryFormat.double.shortest l.tie x.magnitude)

/-- Digits and a point, whatever the size; a tie goes to the greater magnitude. -/
def plainLayout : NumeralLayout := ⟨.up, fun _ => true, false⟩

def plainText (x : Binary64) : String := String.ofList (x.write plainLayout)

end Binary64
end ChainKit
