import ChainKit.Checksum
import ChainKit.Curve.Ecdsa
import ChainKit.Key.Basic

namespace ChainKit

def KeyType.curve : KeyType → Curve
  | .k1 => .k1
  | .r1 => .r1

def KeyType.wantsLow : KeyType → Bool
  | .k1 => true
  | .r1 => false

namespace PublicKey

/-- The compressed form of a point: the parity of `y` in the first byte, then `x`. -/
def compress (x y : Nat) : Blob 33 :=
  ⟨(if y % 2 = 1 then 3 else 2) :: Bytes.ofNatBE 32 x, by simp⟩

def ofPoint? (type : KeyType) : Point → Option PublicKey
  | .infinity => none
  | .affine x y => some ⟨type, compress x y⟩

/-- The point without a stated parity: the even one on K1, and on R1 the one with the smaller second
coordinate. -/
def compactPoint? (type : KeyType) (x : Nat) : Option Point :=
  match type, type.curve.decompress? x false with
  | .r1, some (.affine x y) => some (.affine x (min y (type.curve.p - y)))
  | _, point => point

/-- The point of a key, by its first byte: 2 for an even second coordinate, 3 for an odd one, 5 for
none stated. -/
def point? (k : PublicKey) : Option Point :=
  let x := Bytes.toNatBE k.data.bytes.tail
  match k.data.bytes.head? with
  | some 2 => k.type.curve.decompress? x false
  | some 3 => k.type.curve.decompress? x true
  | some 5 => compactPoint? k.type x
  | _ => none

end PublicKey

namespace Signature

def ofEcdsa (type : KeyType) (sig : Ecdsa.Signature) : Signature :=
  let recovery := 31 + (if sig.odd then 1 else 0) + (if sig.reduced then 2 else 0)
  ⟨type, recovery :: (Bytes.ofNatBE 32 sig.r ++ Bytes.ofNatBE 32 sig.s), by simp⟩

def r (sig : Signature) : Nat := Bytes.toNatBE ((sig.data.bytes.drop 1).take 32)

def s (sig : Signature) : Nat := Bytes.toNatBE (sig.data.bytes.drop 33)

/-- Whether neither `r` nor `s` has its top bit set, nor starts with a zero byte that is not needed
to keep the top bit clear. -/
def isCanonical (sig : Signature) : Bool :=
  let byte (i : Nat) : UInt8 := sig.data.bytes.getD i 0
  let fits (i : Nat) : Bool := byte i &&& 0x80 = 0 && !(byte i = 0 && byte (i + 1) &&& 0x80 = 0)
  fits 1 && fits 33

def hasScalars (sig : Signature) : Bool :=
  Ecdsa.isScalar sig.type.curve sig.r && Ecdsa.isScalar sig.type.curve sig.s

def isTooHigh (sig : Signature) : Bool :=
  sig.type.wantsLow && Ecdsa.isHigh sig.type.curve sig.s

/-- Checks the signature against a digest and key. Signatures of another type never belong to a key;
bad components are found before a bad key. -/
def verify (sig : Signature) (digest : Checksum256) (key : PublicKey) : Except Key.Error Bool :=
  if key.type ≠ sig.type then .ok false
  else if !sig.hasScalars then .error .malformedSignature
  else
    match key.point? with
    | none => .error .malformedSignature
    | some point =>
      .ok (!sig.isTooHigh && Ecdsa.verify sig.type.curve point digest.bytes sig.r sig.s)

/-- The key whose signature this is. Bad components are found before a bad recovery byte. -/
def recover (sig : Signature) (digest : Checksum256) : Except Key.Error PublicKey :=
  let recovery := sig.data.bytes.headD 0
  if !sig.hasScalars then .error .malformedSignature
  else if recovery < 27 then .error (.recoveryByte recovery)
  else if sig.isTooHigh then .error .recoveryFailed
  else
    let parity := (recovery - 27) % 4
    match (Ecdsa.recover? sig.type.curve digest.bytes
      ⟨sig.r, sig.s, parity % 2 = 1, parity / 2 = 1⟩).bind (PublicKey.ofPoint? sig.type) with
    | some key => .ok key
    | none => .error .recoveryFailed

end Signature

namespace PrivateKey

def scalar? (k : PrivateKey) : Option Nat :=
  let d := Bytes.toNatBE k.data.bytes
  if Ecdsa.isScalar k.type.curve d then some d else none

def ofSeed (type : KeyType) (seed : Bytes) : PrivateKey :=
  let d := Bytes.toNatBE (Hash.sha256 seed).bytes % (type.curve.n - 1) + 1
  ⟨type, Bytes.ofNatBE 32 d, by simp⟩

def publicKey (k : PrivateKey) : Except Key.Error PublicKey :=
  match k.scalar?.bind fun d => PublicKey.ofPoint? k.type (k.type.curve.multiplyBase d) with
  | some key => .ok key
  | none => .error .invalidPrivateKey

def maxAttempts : Nat := 100

/-- One attempt at a signature. The first one adds nothing to the nonce and lowers `s` only where
the type wants it; later ones add entropy and always lower `s`. -/
def attempt? (k : PrivateKey) (secret : Nat) (digest : Checksum256) (entropy : Nat → Bytes)
    (i : Nat) : Option Signature :=
  let extra := if i = 0 then [] else entropy i
  let lowers := k.type.wantsLow || i ≠ 0
  (Ecdsa.sign? k.type.curve secret digest.bytes extra).map fun sig =>
    .ofEcdsa k.type (if lowers then sig.lowered k.type.curve else sig)

/-- The first canonical signature among the attempts from number `i` on, `left` of them. -/
def firstCanonical (attempt? : Nat → Option Signature) (i : Nat) :
    (left : Nat) → Except Key.Error Signature
  | 0 => .error (.notCanonical maxAttempts)
  | left + 1 =>
    match attempt? i with
    | none => .error .signingFailed
    | some sig => if sig.isCanonical then .ok sig else firstCanonical attempt? (i + 1) left

/-- Signs a digest; `entropy i` is the randomness of attempt `i`. -/
def sign (k : PrivateKey) (digest : Checksum256) (entropy : Nat → Bytes) :
    Except Key.Error Signature :=
  match k.scalar? with
  | none => .error .invalidPrivateKey
  | some secret => firstCanonical (k.attempt? secret digest entropy) 0 maxAttempts

end PrivateKey
end ChainKit
