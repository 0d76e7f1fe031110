import ChainKit.Bytes.Basic
import ChainKit.Text.Blank
import ChainKit.Text.Decimal
import ChainKit.Text.Split

namespace ChainKit

/-- A symbol code, the first letter in the low byte. -/
structure SymbolCode where
  value : UInt64
deriving DecidableEq, Repr, Inhabited

/-- A symbol, the number of decimal places in the low byte and the code above it. -/
structure Symbol where
  value : UInt64
deriving DecidableEq, Repr, Inhabited

namespace Token

inductive Error where
  | code (text : String)
  | precision (text : String)
  | symbol (text : String)
  | amount (text : String)
  | overflow (text : String)
  | asset (text : String)
deriving DecidableEq, Repr

def Error.message : Error → String
  | .code s => "invalid symbol code \"" ++ s ++ "\""
  | .precision s => "invalid symbol precision \"" ++ s ++ "\""
  | .symbol s => "invalid symbol \"" ++ s ++ "\""
  | .amount s => "invalid asset amount \"" ++ s ++ "\""
  | .overflow s => "asset amount \"" ++ s ++ "\" overflows"
  | .asset s => "invalid asset \"" ++ s ++ "\""

def maxPrecision : Nat := 18

end Token

namespace SymbolCode

/-- The bytes of a code up to the first zero byte. -/
def letters (c : SymbolCode) : Bytes := (Bytes.ofNatLE 8 c.value.toNat).takeWhile (· ≠ 0)

/-- The text of a code; bytes outside ASCII are shown as the characters they number. -/
def text (c : SymbolCode) : String := String.ofList (c.letters.map fun b => Char.ofNat b.toNat)

def isCapital (b : UInt8) : Bool := 65 ≤ b && b ≤ 90

def isValid (c : SymbolCode) : Bool :=
  c.letters.all isCapital && c.value ≠ 0 &&
    ((Bytes.ofNatLE 8 c.value.toNat).drop c.letters.length).all (· = 0)

def parseChars (cs : List Char) : Except Token.Error SymbolCode :=
  if cs ≠ [] ∧ cs.length ≤ 7 ∧ cs.all (fun c => 'A' ≤ c ∧ c ≤ 'Z') then
    .ok ⟨UInt64.ofNat (Bytes.toNatLE (cs.map fun c => UInt8.ofNat c.toNat))⟩
  else .error (.code (String.ofList cs))

def parse (s : String) : Except Token.Error SymbolCode := parseChars s.toList

end SymbolCode

namespace Symbol

def precision (s : Symbol) : Nat := s.value.toNat % 256

def code (s : Symbol) : SymbolCode := ⟨UInt64.ofNat (s.value.toNat / 256)⟩

/-- The symbol of a number of decimal places and a code, whose high byte is lost. -/
def make (precision : Nat) (code : SymbolCode) : Except Token.Error Symbol :=
  if Token.maxPrecision < precision then .error (.precision (Decimal.showNat precision))
  else .ok ⟨UInt64.ofNat (precision + 256 * code.value.toNat)⟩

def text (s : Symbol) : String := Decimal.showNat s.precision ++ "," ++ s.code.text

def parse (s : String) : Except Token.Error Symbol :=
  match Text.splitOnce? ',' (Text.trim s.toList) with
  | none => .error (.symbol s)
  | some (precision, code) =>
    match (Decimal.nat? precision).filter (· < 256) with
    | none => .error (.precision (String.ofList precision))
    | some p => do make p (← SymbolCode.parseChars code)

end Symbol
end ChainKit
