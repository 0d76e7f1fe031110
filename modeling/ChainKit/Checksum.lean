import ChainKit.Bytes.Hex

namespace ChainKit

abbrev Checksum (n : Nat) := Blob n

abbrev Checksum160 := Checksum 20

/-- A 32-byte digest, as used for chain and transaction ids. -/
abbrev Checksum256 := Checksum 32

abbrev Checksum512 := Checksum 64

namespace Checksum

inductive Error where
  | hex (cause : Hex.Error)
  | length (expected actual : Nat)
deriving DecidableEq, Repr

def Error.message : Error → String
  | .hex e => "invalid hex string: " ++ e.message
  | .length expected actual =>
    "invalid checksum length: expected " ++ toString expected ++ " bytes, got " ++ toString actual

variable {n : Nat}

def ofBytes (n : Nat) (bs : Bytes) : Except Error (Checksum n) :=
  match Blob.ofBytes? n bs with
  | some c => .ok c
  | none => .error (.length n bs.length)

def parse (n : Nat) (s : String) : Except Error (Checksum n) :=
  match Hex.decode s with
  | .error e => .error (.hex e)
  | .ok bs => ofBytes n bs

def text (c : Checksum n) : String := Hex.encode c.bytes

def isZero (c : Checksum n) : Bool := c.bytes.all (· = 0)

def debug (c : Checksum n) : String := "Checksum" ++ toString (n * 8) ++ "(" ++ c.text ++ ")"

end Checksum
end ChainKit
