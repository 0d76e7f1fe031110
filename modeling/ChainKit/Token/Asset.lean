import ChainKit.Token.Symbol

namespace ChainKit

structure Asset where
  amount : Int64
  symbol : Symbol
deriving DecidableEq, Repr, Inhabited

namespace Asset

def maxPrintedPrecision : Nat := 38

/-- A magnitude with a decimal point `precision` digits from its end. -/
def magnitudeChars (precision magnitude : Nat) : List Char :=
  if precision = 0 then Decimal.ofNat magnitude
  else
    Decimal.ofNat (magnitude / 10 ^ precision) ++
      '.' :: Decimal.padded precision (magnitude % 10 ^ precision)

def amountChars (precision : Nat) (amount : Int) : List Char :=
  (if amount < 0 then ['-'] else []) ++ magnitudeChars precision amount.natAbs

def text? (a : Asset) : Option String :=
  if maxPrintedPrecision < a.symbol.precision then none
  else
    some (String.ofList (amountChars a.symbol.precision a.amount.toInt) ++ " " ++
      a.symbol.code.text)

def maxMagnitude : Nat := 2 ^ 63

/-- Reads digits behind a number, up to where the number becomes too great. -/
def magnitude? (n : Nat) : List Char → Option Nat
  | [] => some n
  | c :: cs =>
    let n := n * 10 + Decimal.digitValue c
    if maxMagnitude < n then none else magnitude? n cs

def ranged (text : List Char) (negative : Bool) (magnitude : Nat) : Except Token.Error Int :=
  let signed : Int := if negative then -magnitude else magnitude
  if -(2 ^ 63) ≤ signed ∧ signed < 2 ^ 63 then .ok signed
  else .error (.overflow (String.ofList text))

def ofDigits (text : List Char) (negative : Bool) (whole fraction : List Char) :
    Except Token.Error (Int × Nat) :=
  if whole = [] ∨ !(whole ++ fraction).all Char.isDigit then .error (.amount (String.ofList text))
  else if Token.maxPrecision < fraction.length then
    .error (.precision (Decimal.showNat fraction.length))
  else
    match magnitude? 0 (whole ++ fraction) with
    | none => .error (.overflow (String.ofList text))
    | some magnitude => (ranged text negative magnitude).map (·, fraction.length)

def parseUnsigned (text : List Char) (negative : Bool) (digits : List Char) :
    Except Token.Error (Int × Nat) :=
  match Text.splitOnce? '.' digits with
  | none => ofDigits text negative digits []
  | some (whole, fraction) =>
    if fraction = [] then .error (.amount (String.ofList text))
    else ofDigits text negative whole fraction

/-- Reads an amount: an optional minus sign, digits, and optionally a point and more digits. Returns
the signed number that all digits spell and the number of digits after the point. -/
def parseAmount (text : List Char) : Except Token.Error (Int × Nat) :=
  match text with
  | '-' :: digits => parseUnsigned text true digits
  | digits => parseUnsigned text false digits

/-- Reads an amount, a space and a symbol code. The code is checked first. -/
def parse (s : String) : Except Token.Error Asset :=
  match Text.splitOnce? ' ' (Text.trim s.toList) with
  | none => .error (.asset s)
  | some (amount, code) => do
    let code ← SymbolCode.parseChars (Text.trim code)
    let (signed, precision) ← parseAmount amount
    let symbol ← Symbol.make precision code
    return ⟨Int64.ofInt signed, symbol⟩

def toBytes (a : Asset) : Bytes :=
  Bytes.ofNatLE 8 a.amount.toUInt64.toNat ++ Bytes.ofNatLE 8 a.symbol.value.toNat

end Asset
end ChainKit
