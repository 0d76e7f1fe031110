import ChainKit.Hash.Ripemd160
import ChainKit.Hash.Sha256
import ChainKit.Key.Basic
import ChainKit.Text.Split

namespace ChainKit

namespace Key

/-- The first four bytes of the RIPEMD-160 digest of a payload and a salt. -/
def checksum (payload salt : Bytes) : Bytes := (Hash.ripemd160Bytes (payload ++ salt)).take 4

def wifChecksum (payload : Bytes) : Bytes := (Hash.sha256Twice payload).bytes.take 4

def salt : KeyType → Bytes
  | .k1 => [75, 49]
  | .r1 => [82, 49]

def curveMark (type : KeyType) : List Char := type.text.toList ++ ['_']

def tagged (mark : String) (type : KeyType) (payload : Bytes) : String :=
  mark ++ type.text ++ "_" ++ Base58.encode (payload ++ checksum payload (salt type))

def base58 (cs : List Char) : Except Error Bytes := (Base58.decodeChars cs).mapError .base58

def splitChecksum (n : Nat) (raw : Bytes) : Except Error (Blob n × Bytes) :=
  match Blob.ofBytes? n (raw.take n) with
  | some b => if raw.length = n + 4 then .ok (b, raw.drop n) else .error (.length (n + 4) raw.length)
  | none => .error (.length (n + 4) raw.length)

def checked (n : Nat) (text : String) (salt : Bytes) (body : List Char) : Except Error (Blob n) := do
  let raw ← base58 body
  let (payload, check) ← splitChecksum n raw
  if checksum payload.bytes salt = check then return payload else throw (.checksumMismatch text)

/-- Reads the text of a tagged payload; `none` if the text does not begin with the mark. -/
def readTagged (n : Nat) (mark text : String) : Except Error (Option (KeyType × Blob n)) :=
  match Text.after? mark.toList text.toList with
  | none => .ok none
  | some rest =>
    match Text.after? (curveMark .k1) rest with
    | some body => (checked n text (salt .k1) body).map fun b => some (.k1, b)
    | none =>
      match Text.after? (curveMark .r1) rest with
      | some body => (checked n text (salt .r1) body).map fun b => some (.r1, b)
      | none =>
        if (Text.after? "WA_".toList rest).isSome then .error (.unsupportedType "WA")
        else .error (.unknownFormat text)

end Key

namespace PublicKey

def text (k : PublicKey) : String := Key.tagged "PUB_" k.type k.data.bytes

def debug (k : PublicKey) : String := "PublicKey(" ++ k.text ++ ")"

/-- The older text, which has no salt and exists for K1 keys only. -/
def legacyText (k : PublicKey) : Except Key.Error String :=
  match k.type with
  | .k1 => .ok ("EOS" ++ Base58.encode (k.data.bytes ++ Key.checksum k.data.bytes []))
  | .r1 => .error (.unsupportedType k.type.text)

def parse (s : String) : Except Key.Error PublicKey := do
  match ← Key.readTagged 33 "PUB_" s with
  | some (type, data) => return ⟨type, data⟩
  | none =>
    match Text.after? "EOS".toList s.toList with
    | none => throw (.unknownFormat s)
    | some body => return ⟨.k1, ← Key.checked 33 s [] body⟩

end PublicKey

namespace PrivateKey

def text (k : PrivateKey) : String := Key.tagged "PVT_" k.type k.data.bytes

def wifVersion : UInt8 := 0x80

def wif (k : PrivateKey) : Except Key.Error String :=
  match k.type with
  | .k1 =>
    let versioned := wifVersion :: k.data.bytes
    .ok (Base58.encode (versioned ++ Key.wifChecksum versioned))
  | .r1 => .error (.unsupportedType k.type.text)

/-- Reads the older text: the length is checked first, then the version, then the checksum. -/
def parseWif (s : String) : Except Key.Error PrivateKey := do
  let raw ← Key.base58 s.toList
  let (versioned, check) ← Key.splitChecksum 33 raw
  if versioned.bytes.head? ≠ some wifVersion then throw (.unknownFormat "WIF version byte")
  if Key.wifChecksum versioned.bytes ≠ check then throw (.checksumMismatch "WIF private key")
  return ⟨.k1, ← Key.payload 32 versioned.bytes.tail⟩

def parse (s : String) : Except Key.Error PrivateKey := do
  match ← Key.readTagged 32 "PVT_" s with
  | some (type, data) => return ⟨type, data⟩
  | none => parseWif s

end PrivateKey

namespace Signature

def text (sig : Signature) : String := Key.tagged "SIG_" sig.type sig.data.bytes

def parse (s : String) : Except Key.Error Signature := do
  match ← Key.readTagged 65 "SIG_" s with
  | some (type, data) => return ⟨type, data⟩
  | none => throw (.unknownFormat s)

end Signature
end ChainKit
