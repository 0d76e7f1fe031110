import ChainKit.Wire.Reader

namespace ChainKit.Wire

def maxGroups : Nat := 5

def groups : (fuel : Nat) → Nat → Bytes
  | 0, _ => []
  | fuel + 1, n =>
    if n < 128 then [UInt8.ofNat n] else UInt8.ofNat (n % 128 + 128) :: groups fuel (n / 128)

def varuint (n : Nat) : Bytes := groups maxGroups n

/-- Folds 0, -1, 1, -2, … onto 0, 1, 2, 3, …. -/
def fold : Int → Nat
  | .ofNat n => 2 * n
  | .negSucc n => 2 * n + 1

def unfold (n : Nat) : Int := if n % 2 = 0 then .ofNat (n / 2) else .negSucc (n / 2)

theorem unfold_fold (i : Int) : unfold (fold i) = i := by
  cases i with
  | ofNat n => simp [fold, unfold]
  | negSucc n =>
    have h : (2 * n + 1) / 2 = n := by omega
    simp [fold, unfold, h]

theorem fold_unfold (n : Nat) : fold (unfold n) = n := by
  unfold unfold
  split <;> simp only [fold] <;> omega

def varint (i : Int) : Bytes := varuint (fold i)

def lengthPrefixed (bs : Bytes) : Bytes := varuint bs.length ++ bs

namespace Read

/-- Reads at most `left` groups and adds them to `value`, in units of `unit`. The last group has
only four bits. -/
def groups (start : Nat) : (left value unit : Nat) → Read Nat
  | 0, _, _ => throw ⟨start, .overflow⟩
  | left + 1, value, unit => do
    let b ← byte
    if left = 0 ∧ 16 ≤ b then throw ⟨start, .overflow⟩
    let value := value + unit * (b.toNat % 128)
    if b < 128 then return value else groups start left value (unit * 128)

def varuint : Read Nat := do groups (← position) maxGroups 0 1

def varint : Read Int := do return unfold (← varuint)

def lengthPrefixed : Read Bytes := do bytes (← varuint)

end Read
end ChainKit.Wire
