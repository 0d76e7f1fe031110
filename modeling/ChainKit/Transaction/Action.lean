import ChainKit.Abi.Context
import ChainKit.ClientError

namespace ChainKit

open Json (Source Record)

structure PermissionLevel where
  actor : Name
  permission : Name
deriving DecidableEq, Repr, Inhabited

namespace PermissionLevel

def parseName (s : String) : Except ClientError Name := (Name.parse s).mapError fun e => .value (.name e)

def parse (actor permission : String) : Except ClientError PermissionLevel := do
  return ⟨← parseName actor, ← parseName permission⟩

def ofSource? (s : Source) : Option PermissionLevel := do
  let r ← Record.ofSource? ["actor", "permission"] s
  return ⟨← r.required? "actor" Abi.name?, ← r.required? "permission" Abi.name?⟩

def toJson (p : PermissionLevel) : Json :=
  .obj [("actor", .str p.actor.text), ("permission", .str p.permission.text)]

end PermissionLevel

/-- The payload of an action: JSON to be packed by the schema of the contract, or packed bytes. -/
inductive ActionData where
  | json (value : Json)
  | packed (bytes : Bytes)
deriving Repr

structure Action where
  account : Name
  name : Name
  authorization : List PermissionLevel
  data : ActionData
deriving Repr

namespace Action

def packed? (a : Action) : Option Bytes :=
  match a.data with
  | .packed bs => some bs
  | .json _ => none

def isPacked (a : Action) : Bool := a.packed?.isSome

abbrev Op := EStateM ClientError Abi.Context

def inContext {α : Type} (op : Abi.Context.Op α) : Op α := EStateM.adaptExcept ClientError.abi op

/-- Packs the payload by the schema of the contract, unless it is packed. The payload goes through
its JSON text. -/
def pack (d : Abi.Document) (a : Action) : Op Action :=
  match a.data with
  | .packed _ => return a
  | .json v => do
    let bs ← inContext (Abi.Context.serialize a.account a.name.text (Json.render v) d)
    return { a with data := .packed bs }

/-- Unpacks the payload by the schema of the contract, unless it is JSON. The payload goes through
its JSON text. -/
def unpack (d : Abi.Document) (a : Action) : Op Action :=
  match a.data with
  | .json _ => return a
  | .packed bs => do
    let v ← inContext (Abi.Context.deserialize a.account a.name.text (Hex.encode bs) d)
    match Json.parse? (Json.render v) with
    | some v => return { a with data := .json v }
    | none => throw .malformedJson

def toJson (a : Action) : Except ClientError Json :=
  match a.data with
  | .json _ => .error (.unpackedAction a.account a.name)
  | .packed bs =>
    .ok (.obj [("account", .str a.account.text), ("name", .str a.name.text),
      ("authorization", .arr (a.authorization.map PermissionLevel.toJson)),
      ("data", .str (Hex.encode bs))])

def ofSource? (s : Source) : Option (Action × String) := do
  let r ← Record.ofSource? ["account", "name", "authorization", "data"] s
  let account ← r.required? "account" Abi.name?
  let name ← r.required? "name" Abi.name?
  let authorization ← r.required? "authorization" (Source.list? PermissionLevel.ofSource?)
  let data ← r.required? "data" Source.string?
  return (⟨account, name, authorization, .packed []⟩, data)

def ofLayout (s : Source) : Except ClientError Action :=
  match ofSource? s with
  | none => .error .malformedJson
  | some (a, hex) =>
    match Hex.decode hex with
    | .ok bs => .ok { a with data := .packed bs }
    | .error e => .error (.hex e)

end Action
end ChainKit
