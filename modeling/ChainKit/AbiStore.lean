import ChainKit.Hash.Sha256
import ChainKit.Transaction.Action

namespace ChainKit

structure AbiStore where
  entries : SortedMap Name Bytes
deriving Inhabited

namespace AbiStore

def empty : AbiStore := ⟨.empty⟩

variable (s : AbiStore)

def contains (account : Name) : Bool := s.entries.contains account

def find? (account : Name) : Option Bytes := s.entries.find? account

def size : Nat := s.entries.size

def hash? (account : Name) : Option Checksum256 := (s.find? account).map Hash.sha256

def hashes : List (Name × Checksum256) :=
  s.entries.entries.map fun (account, abi) => (account, Hash.sha256 abi)

/-- The accounts in a list that have no schema here, each once, in order of appearance. -/
def missing (accounts : List Name) : List Name :=
  (accounts.filter fun a => !s.contains a).eraseDups

/-- Stores packed bytes, which must unpack as a schema. -/
def insert (account : Name) (abi : Bytes) : Action.Op AbiStore := do
  let _ ← Action.inContext (Abi.Context.deserializeAbi abi)
  return ⟨s.entries.insert account abi⟩

def insertHex (account : Name) (hex : String) : Action.Op AbiStore :=
  match Hex.decode hex with
  | .ok abi => s.insert account abi
  | .error e => throw (.hex e)

def insertJson (account : Name) (json : String) : Action.Op AbiStore :=
  match Abi.Document.parse? json with
  | none => throw (.abi (.schema .malformedText))
  | some d => do s.insert account (← Action.inContext (Abi.Context.serializeAbi d))

def document (account : Name) : Action.Op Abi.Document :=
  match s.find? account with
  | none => throw (.missingAbis [account])
  | some abi => Action.inContext (Abi.Context.deserializeAbi abi)

def json (account : Name) : Action.Op String := do return (← s.document account).text

end AbiStore
end ChainKit
