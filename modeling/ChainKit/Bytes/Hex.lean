import ChainKit.Bytes.Basic
import ChainKit.Text.Literal

namespace ChainKit.Hex

inductive Error where
  | oddLength
  | invalidDigit (byte : UInt8) (position : Nat)
deriving DecidableEq, Repr

def Error.message : Error → String
  | .oddLength => "Odd number of digits"
  | .invalidDigit b i =>
    "Invalid character " ++ Text.charLiteral (Char.ofNat b.toNat) ++ " at position " ++ toString i

def digitValue? (b : UInt8) : Option UInt8 :=
  if 48 ≤ b ∧ b ≤ 57 then some (b - 48)
  else if 97 ≤ b ∧ b ≤ 102 then some (b - 87)
  else if 65 ≤ b ∧ b ≤ 70 then some (b - 55)
  else none

def digits (b : UInt8) : List Char :=
  [Nat.digitChar (b.toNat / 16), Nat.digitChar (b.toNat % 16)]

def encodeChars (bs : Bytes) : List Char := bs.flatMap digits

def encode (bs : Bytes) : String := String.ofList (encodeChars bs)

/-- Reads digit pairs; `i` is the position of the next digit. -/
def decodePairs (i : Nat) : Bytes → Except Error Bytes
  | hi :: lo :: rest =>
    match digitValue? hi with
    | none => .error (.invalidDigit hi i)
    | some h =>
      match digitValue? lo with
      | none => .error (.invalidDigit lo (i + 1))
      | some l => (decodePairs (i + 2) rest).map ((h * 16 + l) :: ·)
  | _ => .ok []

/-- Reads hexadecimal text. The length is checked before any digit, and positions count bytes of
the UTF-8 form. -/
def decode (s : String) : Except Error Bytes :=
  let bs := s.toByteArray.data.toList
  if bs.length % 2 = 1 then .error .oddLength else decodePairs 0 bs

end ChainKit.Hex
