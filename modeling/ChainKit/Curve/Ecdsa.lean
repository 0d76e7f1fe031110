import ChainKit.Curve.Basic
import ChainKit.Hash.Sha256

namespace ChainKit.Ecdsa

/-- A signature with the two bits that single out the signer's key: whether the nonce point has an
odd second coordinate, and whether its first coordinate was reduced. -/
structure Signature where
  r : Nat
  s : Nat
  odd : Bool
  reduced : Bool
deriving Repr

def isScalar (c : Curve) (k : Nat) : Bool := 0 < k && k < c.n

def isHigh (c : Curve) (s : Nat) : Bool := c.n / 2 < s

structure Generator where
  key : Bytes
  value : Bytes

namespace Generator

def reseed (g : Generator) (tag : UInt8) (seed : Bytes) : Generator :=
  let key := Hash.hmacSha256 g.key (g.value ++ tag :: seed)
  ⟨key, Hash.hmacSha256 key g.value⟩

def start (seed : Bytes) : Generator :=
  let g : Generator := ⟨List.replicate 32 0, List.replicate 32 1⟩
  (g.reseed 0 seed).reseed 1 seed

/-- The first output that is a scalar, among at most `fuel` of them. -/
def scalar? (c : Curve) : (fuel : Nat) → Generator → Option Nat
  | 0, _ => none
  | fuel + 1, g =>
    let g : Generator := { g with value := Hash.hmacSha256 g.key g.value }
    let k := Bytes.toNatBE g.value
    if isScalar c k then some k else scalar? c fuel (g.reseed 0 [])

end Generator

/-- The deterministic nonce of a secret and a digest (RFC 6979), varied by extra bytes. -/
def nonce? (c : Curve) (secret : Nat) (digest extra : Bytes) : Option Nat :=
  (Generator.start (Bytes.ofNatBE 32 secret ++ digest ++ extra)).scalar? c 64

/-- Replaces a high `s` by its negative, which belongs to the opposite nonce point. -/
def Signature.lowered (c : Curve) (sig : Signature) : Signature :=
  if isHigh c sig.s then { sig with s := c.n - sig.s, odd := !sig.odd } else sig

def signWith? (c : Curve) (secret nonce : Nat) (digest : Bytes) : Option Signature :=
  match c.multiplyBase nonce with
  | .infinity => none
  | .affine x y =>
    let r := x % c.n
    let s := inverseMod c.n nonce * (Bytes.toNatBE digest + r * secret) % c.n
    if isScalar c r && isScalar c s then some ⟨r, s, y % 2 = 1, c.n ≤ x⟩ else none

def sign? (c : Curve) (secret : Nat) (digest extra : Bytes) : Option Signature :=
  (nonce? c secret digest extra).bind fun k => signWith? c secret k digest

def verify (c : Curve) (key : Point) (digest : Bytes) (r s : Nat) : Bool :=
  let w := inverseMod c.n s
  match c.combine (Bytes.toNatBE digest * w % c.n) (r * w % c.n) key with
  | .infinity => false
  | .affine x _ => x % c.n = r

def recover? (c : Curve) (digest : Bytes) (sig : Signature) : Option Point :=
  match c.decompress? (if sig.reduced then sig.r + c.n else sig.r) sig.odd with
  | none => none
  | some nonce =>
    let w := inverseMod c.n sig.r
    let z := Bytes.toNatBE digest % c.n
    match c.combine ((c.n - z) * w % c.n) (sig.s * w % c.n) nonce with
    | .infinity => none
    | key => if verify c key digest sig.r sig.s then some key else none

end ChainKit.Ecdsa
