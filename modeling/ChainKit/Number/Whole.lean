attribute [instance (2000), default_instance (20000)] instPowNat

namespace ChainKit

def total : List Nat → Nat
  | [] => 0
  | n :: rest => n + total rest

end ChainKit
