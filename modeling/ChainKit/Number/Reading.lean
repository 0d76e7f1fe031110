import ChainKit.Number.Binary
import ChainKit.Text.Decimal

namespace ChainKit.Binary64

/-- The number nearest to `significand * 10 ^ exponent`. Exponents far outside the range are settled
without computing the power. -/
def ofScaled (negative : Bool) (significand : Nat) (exponent : Int) : Binary64 :=
  if significand = 0 then ofParts negative 0
  else
    let size := exponent + (Decimal.ofNat significand).length
    if 400 < size then infinity negative
    else if size < -400 then ofParts negative 0
    else ofRatio negative (.scaled significand exponent)

def spanDigits (cs : List Char) : List Char × List Char := cs.span Char.isDigit

def exponent? : List Char → Option Int
  | [] => some 0
  | e :: cs => if e = 'e' ∨ e = 'E' then Decimal.int? cs else none

/-- Reads an unsigned decimal numeral: digits, an optional point with digits, an optional exponent;
at least one digit stands before the exponent. -/
def unsigned? (negative : Bool) (cs : List Char) : Option Binary64 :=
  let (whole, rest) := spanDigits cs
  let (fraction, rest) :=
    match rest with
    | '.' :: rest => spanDigits rest
    | rest => ([], rest)
  if whole ++ fraction = [] then none
  else
    (exponent? rest).map fun e =>
      ofScaled negative (Decimal.natOfDigits (whole ++ fraction)) (e - fraction.length)

def named? (negative : Bool) (cs : List Char) : Option Binary64 :=
  let name := cs.map Char.toLower
  if name = "inf".toList ∨ name = "infinity".toList then some (infinity negative)
  else if name = "nan".toList then some (nan negative)
  else none

def ofChars? (cs : List Char) : Option Binary64 :=
  let (negative, cs) :=
    match cs with
    | '-' :: cs => (true, cs)
    | '+' :: cs => (false, cs)
    | cs => (false, cs)
  (named? negative cs).orElse fun _ => unsigned? negative cs

end ChainKit.Binary64
