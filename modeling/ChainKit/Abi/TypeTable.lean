import ChainKit.Abi.Resolution

namespace ChainKit.Abi

/-- The types of a document: the parts of its structs and variants, and what each name means that
was met on the way. -/
structure TypeTable where
  structs : List StructType
  variants : List VariantType
  meanings : Meanings
deriving DecidableEq, Repr, Inhabited

namespace Document

/-- Checks the names that a document declares, in order, against the rules and the names before. -/
def checkNames (seen : List String) : List String → Except SchemaError Unit
  | [] => .ok ()
  | name :: rest =>
    if name = "" then .error .emptyName
    else if (Builtin.ofName? name).isSome then .error (.redefinesBuiltin name)
    else if (Suffix.split? name).isSome then .error (.suffixInName name)
    else if seen.contains name then .error (.duplicateType name)
    else checkNames (name :: seen) rest

variable (d : Document)

def declaredNames : List String :=
  d.aliases.map AliasDef.name ++ d.structs.map StructDef.name ++ d.variants.map VariantDef.name

def fieldType (s : StructDef) (f : FieldDef) : Resolving SchemaError Field := do
  return ⟨f.name, ← d.resolveReference (.field s.name f.name) f.type⟩

def structType (s : StructDef) : Resolving SchemaError StructType := do
  let fields ← d.flatten s
  return ⟨s.name, ← fields.mapM (d.fieldType s)⟩

def memberType (v : VariantDef) (m : String) : Resolving SchemaError Member := do
  return ⟨m, ← d.resolveReference (.variant v.name) m⟩

def variantType (v : VariantDef) : Resolving SchemaError VariantType := do
  return ⟨v.name, ← v.members.mapM (d.memberType v)⟩

def checkAlias (a : AliasDef) : Resolving SchemaError Unit := do
  let _ ← d.resolveReference (.alias a.name) a.name

def checkEntries (referrer : Name → Referrer) (duplicate : Name → SchemaError) (seen : List Name) :
    List (Name × String) → Resolving SchemaError Unit
  | [] => return ()
  | (name, type) :: rest =>
    if seen.contains name then throw (duplicate name)
    else do
      let _ ← d.resolveReference (referrer name) type
      checkEntries referrer duplicate (name :: seen) rest

def checkResult (r : ActionResultDef) : Resolving SchemaError Unit := do
  let _ ← d.resolveReference (.actionResult r.name) r.type

/-- The parts of the structs and variants. The first fault in order of struct, variant, alias,
action, table and action result is the error. -/
def resolveAll : Resolving SchemaError (List StructType × List VariantType) := do
  let structs ← d.structs.mapM d.structType
  let variants ← d.variants.mapM d.variantType
  d.aliases.forM d.checkAlias
  d.checkEntries .action .duplicateAction [] (d.actions.map fun a => (a.name, a.type))
  d.checkEntries .table .duplicateTable [] (d.tables.map fun t => (t.name, t.type))
  d.actionResults.forM d.checkResult
  return (structs, variants)

end Document

namespace TypeTable

def build (d : Document) : Except SchemaError TypeTable := do
  Document.checkNames [] d.declaredNames
  let ((structs, variants), meanings) ←
    d.resolveAll.run ⟨d.declarations, d.declarations.map Prod.snd⟩
  return ⟨structs, variants, meanings⟩

variable (t : TypeTable)

def struct? (name : String) : Option StructType := t.structs.find? fun s => s.name == name

def variant? (name : String) : Option VariantType := t.variants.find? fun v => v.name == name

def lookup? (name : String) : Option Ty := t.meanings.lookup? name

/-- The type of a requested name, which may put suffixes on any known name. The walk takes at most
`fuel` steps. -/
def viewWithin : (fuel : Nat) → String → Except ResolutionError Ty
  | 0, name => throw (.unknownType name)
  | fuel + 1, name =>
    match t.lookup? name, Suffix.split? name, Builtin.ofName? name with
    | some type, _, _ => return type
    | none, some (suffix, inner), _ => do
      match suffix.wrap? (← viewWithin fuel inner) with
      | some type => return type
      | none => throw (.schema (.invalidNesting name))
    | none, none, some b => return .builtin b
    | none, none, none => throw (.unknownType name)

def view (name : String) : Except ResolutionError Ty := t.viewWithin (name.length + 1) name

/-- The number of types: the structs and variants, and each built-in type and each name with a
suffix that was met. -/
def size : Nat := t.meanings.types.length

end TypeTable
end ChainKit.Abi
