import ChainKit.Number.Whole

namespace ChainKit

/-- Which of two whole numbers stands for a number halfway between them: the even one or the greater
one. -/
inductive Tie where
  | even
  | up
deriving DecidableEq, Repr

/-- A ratio of natural numbers; the denominator is meant to be positive. -/
structure Ratio where
  num : Nat
  den : Nat
deriving DecidableEq, Repr

namespace Ratio

def scaled (n : Nat) (exponent : Int) : Ratio := ⟨n * 10 ^ exponent.toNat, 10 ^ (-exponent).toNat⟩

def shifted (n : Nat) (exponent : Int) : Ratio := ⟨n * 2 ^ exponent.toNat, 2 ^ (-exponent).toNat⟩

def mul (a b : Ratio) : Ratio := ⟨a.num * b.num, a.den * b.den⟩

def div (a b : Ratio) : Ratio := ⟨a.num * b.den, a.den * b.num⟩

def le (a b : Ratio) : Bool := a.num * b.den ≤ b.num * a.den

def lt (a b : Ratio) : Bool := a.num * b.den < b.num * a.den

def floor (a : Ratio) : Nat := a.num / a.den

/-- The whole number nearest to the ratio; halfway between two, the one that `tie` names. -/
def nearest (tie : Tie) (a : Ratio) : Nat :=
  let q := a.num / a.den
  let twice := 2 * (a.num % a.den)
  if twice < a.den then q
  else if a.den < twice then q + 1
  else
    match tie with
    | .even => if q % 2 = 0 then q else q + 1
    | .up => q + 1

/-- The greatest `e` with `2 ^ e` not above the ratio, for a positive ratio. -/
def floorLog2 (a : Ratio) : Int :=
  let l : Int := (a.num.log2 : Int) - a.den.log2
  if le (shifted 1 l) a then l else l - 1

def floorLog10 (a : Ratio) : Int :=
  let l : Int := ((Nat.toDigits 10 a.num).length : Int) - (Nat.toDigits 10 a.den).length
  if le (scaled 1 l) a then l else l - 1

end Ratio

/-- A binary interchange format: bits of precision, the implied one included, and bits of the
exponent. -/
structure BinaryFormat where
  precision : Nat
  exponentBits : Nat

namespace BinaryFormat

def single : BinaryFormat := ⟨24, 8⟩

def double : BinaryFormat := ⟨53, 11⟩

variable (f : BinaryFormat)

def minExponent : Int := 3 - (2 ^ (f.exponentBits - 1) : Nat) - f.precision

/-- The magnitude bits of infinity; larger patterns are no numbers. -/
def infinity : Nat := (2 ^ f.exponentBits - 1) * 2 ^ (f.precision - 1)

def signBit : Nat := 2 ^ (f.precision - 1 + f.exponentBits)

/-- The magnitude bits of the number nearest to a ratio, infinity beyond the largest. -/
def round (a : Ratio) : Nat :=
  if a.num = 0 then 0
  else
    let q := max (a.floorLog2 - (f.precision - 1)) f.minExponent
    let m := (a.div (.shifted 1 q)).nearest .even
    min ((q - f.minExponent).toNat * 2 ^ (f.precision - 1) + m) f.infinity

def parts (bits : Nat) : Nat × Int :=
  let e := bits / 2 ^ (f.precision - 1)
  let m := bits % 2 ^ (f.precision - 1)
  if e = 0 then (m, f.minExponent) else (m + 2 ^ (f.precision - 1), f.minExponent + (e - 1))

def ratio (bits : Nat) : Ratio := .shifted (f.parts bits).1 (f.parts bits).2

end BinaryFormat

structure Binary64 where
  bits : UInt64
deriving DecidableEq, Repr, Inhabited

namespace Binary64

def ofParts (negative : Bool) (magnitude : Nat) : Binary64 :=
  ⟨UInt64.ofNat ((if negative then BinaryFormat.double.signBit else 0) + magnitude)⟩

def isNegative (x : Binary64) : Bool := BinaryFormat.double.signBit ≤ x.bits.toNat

def magnitude (x : Binary64) : Nat := x.bits.toNat % BinaryFormat.double.signBit

def isNaN (x : Binary64) : Bool := BinaryFormat.double.infinity < x.magnitude

def isFinite (x : Binary64) : Bool := x.magnitude < BinaryFormat.double.infinity

def nan (negative : Bool) : Binary64 :=
  ofParts negative (BinaryFormat.double.infinity + 2 ^ 51)

def infinity (negative : Bool) : Binary64 := ofParts negative BinaryFormat.double.infinity

def ofRatio (negative : Bool) (a : Ratio) : Binary64 :=
  ofParts negative (BinaryFormat.double.round a)

def ofInt (i : Int) : Binary64 := ofRatio (i < 0) ⟨i.natAbs, 1⟩

def toSingleBits (x : Binary64) : UInt32 :=
  let f := BinaryFormat.single
  let magnitude :=
    if x.isNaN then f.infinity + 2 ^ 22
    else if x.isFinite then f.round (BinaryFormat.double.ratio x.magnitude)
    else f.infinity
  UInt32.ofNat ((if x.isNegative then f.signBit else 0) + magnitude)

end Binary64
end ChainKit
