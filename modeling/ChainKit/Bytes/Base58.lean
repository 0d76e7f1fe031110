import ChainKit.Bytes.Basic
import ChainKit.Bytes.Radix
import ChainKit.Text.Literal

namespace ChainKit.Base58

inductive Error where
  | invalidSymbol (c : Char) (position : Nat)
  | nonAscii (position : Nat)
deriving DecidableEq, Repr

def Error.message : Error → String
  | .invalidSymbol c i =>
    "provided string contained invalid character " ++ Text.charLiteral c ++ " at byte " ++ toString i
  | .nonAscii i =>
    "provided string contained non-ascii character starting at byte " ++ toString i

def alphabet : List Char :=
  "123456789ABCDEFGHJKLMNPQRSTUVWXYZabcdefghijkmnopqrstuvwxyz".toList

def symbol (d : Nat) : Char := alphabet.getD d '1'

def symbolValue? (c : Char) : Option Nat := alphabet.idxOf? c

def encodeChars (bs : Bytes) : List Char :=
  List.replicate (bs.takeWhile (· = 0)).length '1' ++
    (Radix.digits 58 (Bytes.toNatBE bs)).map symbol

def encode (bs : Bytes) : String := String.ofList (encodeChars bs)

/-- The values of the symbols; `i` is the position of the next one. All symbols before the first
bad one are ASCII, so positions count bytes as well as characters. -/
def symbolValues (i : Nat) : List Char → Except Error (List Nat)
  | [] => .ok []
  | c :: cs =>
    if c.toNat < 128 then
      match symbolValue? c with
      | some d => (symbolValues (i + 1) cs).map (d :: ·)
      | none => .error (.invalidSymbol c i)
    else .error (.nonAscii i)

def decodeChars (cs : List Char) : Except Error Bytes :=
  (symbolValues 0 cs).map fun ds =>
    List.replicate (ds.takeWhile (· = 0)).length 0 ++
      (Radix.digits 256 (Radix.value 58 ds)).map UInt8.ofNat

def decode (s : String) : Except Error Bytes := decodeChars s.toList

end ChainKit.Base58
