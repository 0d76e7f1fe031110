import ChainKit.Bytes.Base58
import ChainKit.SortedMap
import ChainKit.Text.Decimal

namespace ChainKit

inductive KeyType where
  | k1
  | r1
deriving DecidableEq, Repr, Inhabited

structure PublicKey where
  type : KeyType
  data : Blob 33
deriving DecidableEq, Inhabited

structure PrivateKey where
  type : KeyType
  data : Blob 32
deriving DecidableEq, Inhabited

/-- A compact signature: a recovery byte, then `r` and `s`, high byte first. -/
structure Signature where
  type : KeyType
  data : Blob 65
deriving DecidableEq, Inhabited

namespace Key

inductive Error where
  | unknownFormat (text : String)
  | base58 (cause : Base58.Error)
  | checksumMismatch (text : String)
  | length (expected actual : Nat)
  | unsupportedType (name : String)
  | malformedSignature
  | recoveryByte (byte : UInt8)
  | recoveryFailed
  | signingFailed
  | notCanonical (attempts : Nat)
  | invalidPrivateKey
deriving DecidableEq, Repr

def Error.message : Error → String
  | .unknownFormat s => "unrecognised key format: " ++ s
  | .base58 e => "invalid base58: " ++ e.message
  | .checksumMismatch s => "checksum mismatch in " ++ s
  | .length expected actual =>
    "invalid length: expected " ++ toString expected ++ " bytes, got " ++ toString actual
  | .unsupportedType s => "unsupported key type: " ++ s
  | .malformedSignature => "invalid signature: signature error"
  | .recoveryByte b => "invalid signature: recovery byte " ++ toString b.toNat
  | .recoveryFailed => "public key recovery failed: signature error"
  | .signingFailed => "signing failed: signature error"
  | .notCanonical n =>
    "signing failed: no canonical signature after " ++ toString n ++ " attempts"
  | .invalidPrivateKey => "invalid private key"

def payload (n : Nat) (bs : Bytes) : Except Error (Blob n) :=
  match Blob.ofBytes? n bs with
  | some b => .ok b
  | none => .error (.length n bs.length)

end Key

namespace KeyType

def tag : KeyType → UInt8
  | .k1 => 0
  | .r1 => 1

/-- The type with a wire tag. Tag 2 belongs to a family that is not supported. -/
def ofTag (tag : UInt8) : Except Key.Error KeyType :=
  if tag = 0 then .ok .k1
  else if tag = 1 then .ok .r1
  else if tag = 2 then .error (.unsupportedType "WA")
  else .error (.unsupportedType (Decimal.showNat tag.toNat))

def text : KeyType → String
  | .k1 => "K1"
  | .r1 => "R1"

end KeyType

namespace PublicKey

def ofParts (tag : UInt8) (bs : Bytes) : Except Key.Error PublicKey := do
  let type ← KeyType.ofTag tag
  return ⟨type, ← Key.payload 33 bs⟩

instance : Ranked PublicKey where
  rank k := Bytes.toNatLE (k.data.bytes.reverse ++ [k.type.tag])
  rank_inj {a b} h := by
    have hlist := Bytes.toNatLE_inj (by simp [a.data.length_eq, b.data.length_eq]) h
    have hdata : a.data = b.data :=
      Blob.ext_bytes (by simpa using (List.append_inj' hlist rfl).1)
    have htype : a.type = b.type := by
      have := (List.append_inj' hlist rfl).2
      revert this
      cases a.type <;> cases b.type <;> decide
    cases a; cases b
    simp_all

end PublicKey

namespace PrivateKey

def ofParts (tag : UInt8) (bs : Bytes) : Except Key.Error PrivateKey := do
  let type ← KeyType.ofTag tag
  return ⟨type, ← Key.payload 32 bs⟩

def debug (k : PrivateKey) : String := "PrivateKey(" ++ k.type.text ++ ", <redacted>)"

end PrivateKey

namespace Signature

def ofParts (tag : UInt8) (bs : Bytes) : Except Key.Error Signature := do
  let type ← KeyType.ofTag tag
  return ⟨type, ← Key.payload 65 bs⟩

end Signature
end ChainKit
