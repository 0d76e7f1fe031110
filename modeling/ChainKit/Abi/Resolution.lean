import ChainKit.Abi.Document.Basic
import ChainKit.Abi.SchemaError
import ChainKit.Abi.Ty

namespace ChainKit.Abi

inductive ResolutionError where
  | unknownType (name : String)
  | schema (error : SchemaError)
deriving DecidableEq, Repr

/-- What the names met so far mean, the last first, and the types they added in order. An alias adds
none. -/
structure Meanings where
  names : List (String × Ty)
  types : List Ty
deriving DecidableEq, Repr, Inhabited

abbrev Resolving (ε : Type) := StateT Meanings (Except ε)

namespace Meanings

def lookup? (m : Meanings) (name : String) : Option Ty := m.names.lookup name

def remember {ε : Type} (name : String) (t : Ty) : Resolving ε Ty :=
  modifyGet fun m => (t, { m with names := (name, t) :: m.names })

def add {ε : Type} (name : String) (t : Ty) : Resolving ε Ty :=
  modifyGet fun m => (t, ⟨(name, t) :: m.names, m.types ++ [t]⟩)

end Meanings

namespace Document

variable (d : Document)

def struct? (name : String) : Option StructDef := d.structs.find? fun s => s.name == name

def aliasTarget? (name : String) : Option String :=
  (d.aliases.find? fun a => a.name == name).map AliasDef.target

/-- The meanings of the declared structs and variants, which may be referred to before their parts
are resolved. -/
def declarations : List (String × Ty) :=
  d.structs.map (fun s => (s.name, .struct s.name)) ++
    d.variants.map (fun v => (v.name, .variant v.name))

/-- More steps than the way from any name can have that visits each alias once. -/
def stepBound (name : String) : Nat :=
  name.length + 1 + total (d.aliases.map fun a => a.target.length + 1)

/-- The type that a name means. The walk takes at most `fuel` steps, and `visited` holds the aliases
on the way. -/
def resolveWithin :
    (fuel : Nat) → (visited : List String) → String → Resolving ResolutionError Ty
  | 0, _, name => throw (.schema (.aliasCycle name))
  | fuel + 1, visited, name => do
    let m ← get
    match m.lookup? name, Suffix.split? name, Builtin.ofName? name, d.aliasTarget? name with
    | some t, _, _, _ => return t
    | none, some (suffix, inner), _, _ => do
      match suffix.wrap? (← resolveWithin fuel visited inner) with
      | some t => Meanings.add name t
      | none => throw (.schema (.invalidNesting name))
    | none, none, some b, _ => Meanings.add name (.builtin b)
    | none, none, none, none => throw (.unknownType name)
    | none, none, none, some target =>
      if visited.contains name then throw (.schema (.aliasCycle name))
      else do
        let t ← resolveWithin fuel (name :: visited) target
        if t.isExtension then throw (.schema (.aliasOfExtension name target))
        else Meanings.remember name t

def resolve (name : String) : Resolving ResolutionError Ty :=
  d.resolveWithin (d.stepBound name) [] name

/-- A name that means nothing is a fault of the referrer. -/
def blame (referrer : Referrer) : ResolutionError → SchemaError
  | .unknownType n => .unknownReference referrer n
  | .schema e => e

def resolveReference (referrer : Referrer) (name : String) : Resolving SchemaError Ty :=
  fun m => (d.resolve name m).mapError (blame referrer)

/-- The name that a base means, through aliases alone. -/
def baseNameWithin : (fuel : Nat) → (visited : List String) → String → Except SchemaError String
  | 0, _, name => .error (.aliasCycle name)
  | fuel + 1, visited, name =>
    match d.aliasTarget? name with
    | none => .ok name
    | some target =>
      if visited.contains name then .error (.aliasCycle name)
      else baseNameWithin fuel (name :: visited) target

def baseName (name : String) : Except SchemaError String :=
  d.baseNameWithin (d.aliases.length + 2) [] name

/-- A struct behind its bases, the outermost first. `visited` holds the names of the structs below,
among them the one at which the way began. -/
def lineageWithin (start : String) :
    (fuel : Nat) → (visited : List String) → StructDef → Except SchemaError (List StructDef)
  | 0, _, _ => .error (.inheritsFromItself start)
  | fuel + 1, visited, s =>
    if s.base = "" then .ok [s]
    else do
      let name ← d.baseName s.base
      match d.struct? name with
      | none => throw (.baseNotStruct s.base s.name)
      | some base =>
        if visited.contains base.name then throw (.inheritsFromItself start)
        else return (← lineageWithin start fuel (base.name :: visited) base) ++ [s]

def lineage (s : StructDef) : Except SchemaError (List StructDef) :=
  d.lineageWithin s.name (d.structs.length + 1) [s.name] s

def flatten (s : StructDef) : Except SchemaError (List FieldDef) :=
  (d.lineage s).map fun chain => chain.flatMap StructDef.fields

end Document
end ChainKit.Abi
