import ChainKit.Number.Whole

namespace ChainKit.Radix

/-- The digits of `n`, lowest first, at most `fuel` of them. -/
def digitsLow (base : Nat) : (fuel : Nat) → Nat → List Nat
  | 0, _ => []
  | fuel + 1, n => if n = 0 then [] else n % base :: digitsLow base fuel (n / base)

/-- The digits of `n`, highest first; zero has none. -/
def digits (base n : Nat) : List Nat := (digitsLow base n n).reverse

def value (base : Nat) (ds : List Nat) : Nat := ds.foldl (fun n d => n * base + d) 0

end ChainKit.Radix
