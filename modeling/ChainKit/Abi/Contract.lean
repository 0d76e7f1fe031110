import ChainKit.Abi.Codec.Decode
import ChainKit.Abi.Codec.Encode
import ChainKit.Abi.Document.Json

namespace ChainKit.Abi

structure Contract where
  document : Document
  types : TypeTable
deriving Repr, Inhabited

namespace Contract

def ofDocument (d : Document) : Except SchemaError Contract :=
  if d.hasKnownVersion then (TypeTable.build d).map (Contract.mk d)
  else .error (.unsupportedVersion d.version)

def findLast? {ν : Type} (key : Name) (entries : List (Name × ν)) : Option ν :=
  entries.reverse.lookup key

variable (c : Contract)

def actionType? (action : Name) : Option String :=
  findLast? action (c.document.actions.map fun a => (a.name, a.type))

def tableType? (table : Name) : Option String :=
  findLast? table (c.document.tables.map fun t => (t.name, t.type))

def resultType? (action : Name) : Option String :=
  findLast? action (c.document.actionResults.map fun r => (r.name, r.type))

/-- The payload type of an action of that name, else the name itself. -/
def actionOrType (name : String) : String :=
  ((Name.parse name).toOption.bind c.actionType?).getD name

def view (type : String) : Except Error Ty :=
  (c.types.view type).mapError fun e =>
    match e with
    | .unknownType n => .unknownType n
    | .schema e => .schema e

def encode (config : Config) (type : String) (v : Json) : Except Error Bytes := do
  let t ← c.view type
  (Encode.value c.types config.levels t v).mapError (.encode type)

/-- Decodes bytes as a type; none may be left over. -/
def decode (config : Config) (type : String) (bs : Bytes) : Except Error Json := do
  let t ← c.view type
  match (Decode.value c.types config config.levels t).run (.ofBytes bs) with
  | .error e _ => throw (.decode type e)
  | .ok v rest =>
    if rest.isEmpty then return v
    else throw (.decode type ⟨[], rest.position, .extraData rest.remaining⟩)

end Contract
end ChainKit.Abi
