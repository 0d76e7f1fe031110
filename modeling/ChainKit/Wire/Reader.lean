import ChainKit.Bytes.Hex
import ChainKit.Key.Basic
import ChainKit.Token.Symbol

namespace ChainKit.Wire

inductive Fault where
  | endOfData (needed remaining : Nat)
  | overflow
  | boolByte (byte : UInt8)
  | timePoint (micros : Int)
  | utf8
  | precision (precision : Nat)
  | key (cause : Key.Error)
deriving DecidableEq, Repr

def Fault.message : Fault → String
  | .endOfData needed remaining =>
    "unexpected end of data: needed " ++ toString needed ++ " bytes, " ++ toString remaining ++
      " remaining"
  | .overflow => "varuint32 overflows 32 bits"
  | .boolByte b => "invalid bool byte 0x" ++ Hex.encode [b]
  | .timePoint micros => "time_point " ++ toString micros ++ " is out of range"
  | .utf8 => "invalid UTF-8 in string"
  | .precision p => "asset precision " ++ toString p ++ " exceeds " ++ toString Token.maxPrecision
  | .key e => e.message

structure Error where
  offset : Nat
  fault : Fault
deriving DecidableEq, Repr

/-- Unread bytes, and how many were read before them. -/
structure Reader where
  position : Nat
  rest : Bytes
deriving DecidableEq, Repr

namespace Reader

def ofBytes (bs : Bytes) : Reader := ⟨0, bs⟩

def remaining (r : Reader) : Nat := r.rest.length

def isEmpty (r : Reader) : Bool := r.rest.isEmpty

def advance (r : Reader) (n : Nat) : Reader := ⟨r.position + n, r.rest.drop n⟩

end Reader

/-- Reading from the front of a byte string. After a failure the reader stands behind the bytes that
were read. -/
abbrev Read := EStateM Error Reader

namespace Read

def position : Read Nat := do return (← get).position

def bytes (n : Nat) : Read Bytes := fun r =>
  let bs := r.rest.take n
  if bs.length = n then .ok bs (r.advance n)
  else .error ⟨r.position, .endOfData n r.remaining⟩ r

def blob (n : Nat) : Read (Blob n) := fun r =>
  match Blob.ofBytes? n (r.rest.take n) with
  | some b => .ok b (r.advance n)
  | none => .error ⟨r.position, .endOfData n r.remaining⟩ r

def byte : Read UInt8 := do return (← bytes 1).headD 0

def nat (width : Nat) : Read Nat := do return Bytes.toNatLE (← bytes width)

end Read
end ChainKit.Wire
