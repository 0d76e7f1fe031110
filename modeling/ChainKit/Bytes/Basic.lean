import ChainKit.Number.Whole

namespace ChainKit

abbrev Bytes := List UInt8

/-- A byte string of exactly `n` bytes. -/
structure Blob (n : Nat) where
  bytes : Bytes
  length_eq : bytes.length = n
deriving DecidableEq

namespace Blob

variable {n : Nat}

def ofBytes? (n : Nat) (bs : Bytes) : Option (Blob n) :=
  if h : bs.length = n then some ⟨bs, h⟩ else none

def zero (n : Nat) : Blob n := ⟨List.replicate n 0, List.length_replicate⟩

instance : Inhabited (Blob n) := ⟨zero n⟩

theorem ext_bytes {a b : Blob n} (h : a.bytes = b.bytes) : a = b := by
  cases a; cases b; cases h; rfl

@[simp] theorem ofBytes?_bytes (b : Blob n) : ofBytes? n b.bytes = some b := by
  simp [ofBytes?, b.length_eq]

theorem ofBytes?_eq_some {bs : Bytes} {b : Blob n} : ofBytes? n bs = some b ↔ b.bytes = bs := by
  constructor
  · intro h
    unfold ofBytes? at h
    split at h
    · cases h; rfl
    · cases h
  · rintro rfl
    exact ofBytes?_bytes b

theorem ofBytes?_eq_none {bs : Bytes} : ofBytes? n bs = none ↔ bs.length ≠ n := by
  unfold ofBytes?
  split <;> simp_all

end Blob

namespace Bytes

def toNatLE : Bytes → Nat
  | [] => 0
  | b :: bs => b.toNat + 256 * toNatLE bs

/-- The low `width` bytes of a number, low byte first. -/
def ofNatLE : (width : Nat) → Nat → Bytes
  | 0, _ => []
  | width + 1, n => UInt8.ofNat n :: ofNatLE width (n / 256)

def toNatBE (bs : Bytes) : Nat := bs.foldl (fun n b => 256 * n + b.toNat) 0

def ofNatBE (width n : Nat) : Bytes := (ofNatLE width n).reverse

@[simp] theorem length_ofNatLE (width n : Nat) : (ofNatLE width n).length = width := by
  induction width generalizing n with
  | zero => rfl
  | succ w ih => simp [ofNatLE, ih]

@[simp] theorem length_ofNatBE (width n : Nat) : (ofNatBE width n).length = width := by
  simp [ofNatBE]

theorem toNatLE_lt (bs : Bytes) : toNatLE bs < 256 ^ bs.length := by
  induction bs with
  | nil => simp [toNatLE]
  | cons b bs ih =>
    have := b.toNat_lt
    simp only [toNatLE, List.length_cons, Nat.pow_succ]
    omega

theorem toNatLE_ofNatLE (width n : Nat) : toNatLE (ofNatLE width n) = n % 256 ^ width := by
  induction width generalizing n with
  | zero => simp [ofNatLE, toNatLE, Nat.mod_one]
  | succ w ih =>
    rw [ofNatLE, toNatLE, ih, Nat.pow_succ', Nat.mod_mul]
    simp

theorem ofNatLE_toNatLE (bs : Bytes) : ofNatLE bs.length (toNatLE bs) = bs := by
  induction bs with
  | nil => rfl
  | cons b bs ih =>
    have hb := b.toNat_lt
    have hlow : UInt8.ofNat (b.toNat + 256 * toNatLE bs) = b := by
      apply UInt8.toNat.inj
      simp only [UInt8.toNat_ofNat']
      omega
    have hhigh : (b.toNat + 256 * toNatLE bs) / 256 = toNatLE bs := by omega
    simp only [toNatLE, List.length_cons, ofNatLE, hlow, hhigh, ih]

theorem toNatLE_inj {as bs : Bytes} (hlen : as.length = bs.length)
    (h : toNatLE as = toNatLE bs) : as = bs := by
  rw [← ofNatLE_toNatLE as, ← ofNatLE_toNatLE bs, hlen, h]

end Bytes
end ChainKit
