namespace ChainKit.Abi

structure Config where
  /-- How deep structs, arrays, variants and optional values may nest in a value. -/
  maxDepth : Nat := 64
  strictBool : Bool := true
  /-- The greatest array length that is read although fewer bytes are left. -/
  maxArrayLength : Nat := 65536
deriving DecidableEq, Repr, Inhabited

def Config.levels (c : Config) : Nat := c.maxDepth + 1

end ChainKit.Abi
