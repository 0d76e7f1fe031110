import ChainKit.Bytes.Basic

namespace ChainKit.Hash

def rotateLeft (x : UInt32) (n : Nat) : UInt32 :=
  (x <<< UInt32.ofNat n) ||| (x >>> UInt32.ofNat (32 - n))

def rotateRight (x : UInt32) (n : Nat) : UInt32 := rotateLeft x (32 - n)

/-- Cuts a list into parts of `size` items, the last one possibly shorter; at most `fuel` parts. -/
def chunks {α : Type} (size : Nat) : (fuel : Nat) → List α → List (List α)
  | 0, _ => []
  | fuel + 1, xs => if xs.isEmpty then [] else xs.take size :: chunks size fuel (xs.drop size)

/-- A message followed by a one bit, zero bits and its length in bits, filling blocks of 64 bytes.
-/
def pad (lengthBytes : Nat → Bytes) (message : Bytes) : Bytes :=
  message ++ 0x80 :: List.replicate ((119 - message.length % 64) % 64) 0 ++
    lengthBytes (message.length * 8)

def blocks (padded : Bytes) : List Bytes := chunks 64 (padded.length / 64) padded

def words (number : Bytes → Nat) (block : Bytes) : List UInt32 :=
  (chunks 4 16 block).map fun w => UInt32.ofNat (number w)

end ChainKit.Hash
