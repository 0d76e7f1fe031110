import ChainKit.Bytes.Basic
import ChainKit.SortedMap

namespace ChainKit

structure Name where
  value : UInt64
deriving DecidableEq, Repr, Inhabited

namespace Name

instance : Ranked Name where
  rank n := n.value.toNat
  rank_inj {a b} h := by
    cases a; cases b
    exact congrArg Name.mk (UInt64.toNat.inj h)

inductive Error where
  | tooLong (text : String)
  | trailingDot (text : String)
  | invalidChar (text : String) (c : Char)
  | invalidLastChar (text : String)
deriving DecidableEq, Repr

def Error.message : Error → String
  | .tooLong s => "name \"" ++ s ++ "\" is longer than 13 characters"
  | .trailingDot s => "name \"" ++ s ++ "\" ends with '.'"
  | .invalidChar s c => "name \"" ++ s ++ "\" contains invalid character '" ++ c.toString ++ "'"
  | .invalidLastChar s =>
    "13th character of name \"" ++ s ++ "\" must be one of '.', '1'-'5', 'a'-'j'"

def empty : Name := ⟨0⟩

def isEmpty (n : Name) : Bool := n.value = 0

def alphabet : List Char := ".12345abcdefghijklmnopqrstuvwxyz".toList

def symbolValue? (c : Char) : Option Nat := alphabet.idxOf? c

def symbol (d : Nat) : Char := alphabet.getD d '.'

/-- The values of the symbols of a text from place `i` on; the 13th has only four bits. -/
def symbolValues (text : String) (i : Nat) : List Char → Except Error (List Nat)
  | [] => .ok []
  | c :: cs =>
    match symbolValue? c with
    | none => .error (.invalidChar text c)
    | some d =>
      if 12 ≤ i ∧ 15 < d then .error (.invalidLastChar text)
      else (symbolValues text (i + 1) cs).map (d :: ·)

def packFives : (places : Nat) → List Nat → Nat
  | 0, _ => 0
  | places + 1, ds => ds.headD 0 * 32 ^ places + packFives places ds.tail

/-- Twelve symbols of five bits and a 13th of four. -/
def pack (ds : List Nat) : Nat := packFives 12 ds * 16 + (ds.drop 12).headD 0

def unpack (v : Nat) : List Nat :=
  (List.range 12).map (fun i => v / 16 / 32 ^ (11 - i) % 32) ++ [v % 16]

/-- Reads a name. The length is that of the UTF-8 form. -/
def parse (s : String) : Except Error Name :=
  if 13 < s.utf8ByteSize then .error (.tooLong s)
  else if s.toList.getLast? = some '.' then .error (.trailingDot s)
  else (symbolValues s 0 s.toList).map fun ds => ⟨UInt64.ofNat (pack ds)⟩

def chars (n : Name) : List Char :=
  (((unpack n.value.toNat).map symbol).reverse.dropWhile (· = '.')).reverse

def text (n : Name) : String := String.ofList n.chars

def debug (n : Name) : String := "Name(" ++ n.text ++ ")"

def toBytes (n : Name) : Bytes := Bytes.ofNatLE 8 n.value.toNat

def ofBytes (bs : Bytes) : Name := ⟨UInt64.ofNat (Bytes.toNatLE bs)⟩

end Name
end ChainKit
