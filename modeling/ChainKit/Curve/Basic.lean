import ChainKit.Number.Whole

namespace ChainKit

/-- A curve `y ^ 2 = x ^ 3 + a * x + b` over the field of prime size `p`, with a base point of prime
order `n`. -/
structure Curve where
  p : Nat
  a : Nat
  b : Nat
  n : Nat
  gx : Nat
  gy : Nat

namespace Curve

def k1 : Curve where
  p := 0xfffffffffffffffffffffffffffffffffffffffffffffffffffffffefffffc2f
  a := 0
  b := 7
  n := 0xfffffffffffffffffffffffffffffffebaaedce6af48a03bbfd25e8cd0364141
  gx := 0x79be667ef9dcbbac55a06295ce870b07029bfcdb2dce28d959f2815b16f81798
  gy := 0x483ada7726a3c4655da4fbfc0e1108a8fd17b448a68554199c47d08ffb10d4b8

def r1 : Curve where
  p := 0xffffffff00000001000000000000000000000000ffffffffffffffffffffffff
  a := 0xffffffff00000001000000000000000000000000fffffffffffffffffffffffc
  b := 0x5ac635d8aa3a93e7b3ebbd55769886bc651d06b0cc53b0f63bce3c3e27d2604b
  n := 0xffffffff00000000ffffffffffffffffbce6faada7179e84f3b9cac2fc632551
  gx := 0x6b17d1f2e12c4247f8bce6e563a440f277037d812deb33a0f4a13945d898c296
  gy := 0x4fe342e2fe1a7f9b8ee7eb4a7c0f9e162bce33576b315ececbb6406837bf51f5

end Curve

/-- `base ^ exponent` modulo `m`, for exponents below `2 ^ bits`. -/
def powMod (m : Nat) : (bits : Nat) → (base exponent : Nat) → Nat
  | 0, _, _ => 1 % m
  | bits + 1, base, exponent =>
    let rest := powMod m bits (base * base % m) (exponent / 2)
    if exponent % 2 = 1 then base * rest % m else rest

def inverseMod (m x : Nat) : Nat := powMod m 256 (x % m) (m - 2)

/-- A point in affine coordinates, or the point at infinity. -/
inductive Point where
  | infinity
  | affine (x y : Nat)
deriving DecidableEq, Repr

/-- A point in Jacobian coordinates `(x / z ^ 2, y / z ^ 3)`; infinity has `z = 0`. -/
structure Jacobian where
  x : Nat
  y : Nat
  z : Nat

namespace Curve

variable (c : Curve)

def sub (u v : Nat) : Nat := (u + c.p - v) % c.p

def double (q : Jacobian) : Jacobian :=
  if q.z = 0 ∨ q.y = 0 then ⟨1, 1, 0⟩
  else
    let yy := q.y * q.y % c.p
    let s := 4 * q.x * yy % c.p
    let zz := q.z * q.z % c.p
    let m := (3 * q.x * q.x + c.a * (zz * zz % c.p)) % c.p
    let x := c.sub (m * m % c.p) (2 * s % c.p)
    ⟨x, c.sub (m * c.sub s x % c.p) (8 * (yy * yy % c.p) % c.p), 2 * q.y * q.z % c.p⟩

def add (q r : Jacobian) : Jacobian :=
  if q.z = 0 then r
  else if r.z = 0 then q
  else
    let qz := q.z * q.z % c.p
    let rz := r.z * r.z % c.p
    let u := q.x * rz % c.p
    let v := r.x * qz % c.p
    let s := q.y * (r.z * rz % c.p) % c.p
    let t := r.y * (q.z * qz % c.p) % c.p
    if u = v then if s = t then c.double q else ⟨1, 1, 0⟩
    else
      let h := c.sub v u
      let i := c.sub t s
      let hh := h * h % c.p
      let hhh := h * hh % c.p
      let w := u * hh % c.p
      let x := c.sub (c.sub (i * i % c.p) hhh) (2 * w % c.p)
      ⟨x, c.sub (i * c.sub w x % c.p) (s * hhh % c.p), h * q.z * r.z % c.p⟩

def multiply : (bits k : Nat) → Jacobian → Jacobian
  | 0, _, _ => ⟨1, 1, 0⟩
  | bits + 1, k, q =>
    let rest := multiply bits (k / 2) (c.double q)
    if k % 2 = 1 then c.add q rest else rest

def ofPoint : Point → Jacobian
  | .infinity => ⟨1, 1, 0⟩
  | .affine x y => ⟨x, y, 1⟩

def toPoint (q : Jacobian) : Point :=
  if q.z = 0 then .infinity
  else
    let i := inverseMod c.p q.z
    let ii := i * i % c.p
    .affine (q.x * ii % c.p) (q.y * (i * ii % c.p) % c.p)

def base : Point := .affine c.gx c.gy

def multiplyBase (k : Nat) : Point := c.toPoint (c.multiply 256 k (ofPoint c.base))

def combine (u v : Nat) (q : Point) : Point :=
  c.toPoint (c.add (c.multiply 256 u (ofPoint c.base)) (c.multiply 256 v (ofPoint q)))

/-- The point with a given first coordinate whose second coordinate has the given parity. Both field
sizes are 3 modulo 4, so a square root is a power. -/
def decompress? (x : Nat) (odd : Bool) : Option Point :=
  if c.p ≤ x then none
  else
    let square := (x * x % c.p * x + c.a * x + c.b) % c.p
    let y := powMod c.p 256 square ((c.p + 1) / 4)
    if y * y % c.p = square then
      some (.affine x (if (y % 2 = 1) = odd then y else (c.p - y) % c.p))
    else none

end Curve
end ChainKit
