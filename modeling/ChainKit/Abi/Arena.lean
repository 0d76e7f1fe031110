import ChainKit.Abi.TypeTable

namespace ChainKit.Abi

/-- The place of a type among the types of a document. -/
abbrev TypeId := Nat

namespace Arena

structure Part where
  name : String
  type : TypeId
deriving DecidableEq, Repr

inductive Entry where
  | builtin (type : Builtin)
  | struct (name : String) (fields : List Part)
  | variant (name : String) (members : List Part)
  | array (item : TypeId)
  | optional (inner : TypeId)
  | extension (inner : TypeId)
deriving DecidableEq, Repr

namespace Entry

def isExtension : Entry → Bool
  | .extension _ => true
  | _ => false

def isWrapped : Entry → Bool
  | .array _ | .optional _ | .extension _ => true
  | _ => false

def wrap? : Suffix → TypeId → Entry → Option Entry
  | .array, id, e => if e.isWrapped then none else some (.array id)
  | .optional, id, e => if e.isWrapped then none else some (.optional id)
  | .extension, id, e => if e.isExtension then none else some (.extension id)

end Entry

/-- Why types are not stored: for a cause, or because nothing is stored at a place that is asked
for. -/
inductive Fault (ε : Type) where
  | cause (e : ε)
  | outOfRange (id : TypeId)
deriving DecidableEq, Repr

def Fault.map {ε ε' : Type} (f : ε → ε') : Fault ε → Fault ε'
  | .cause e => .cause (f e)
  | .outOfRange id => .outOfRange id

end Arena

/-- The types of a document, one behind the other, and the places of the names met so far, the last
first. A type is in a place of its own for each name with a suffix; an alias has the place of its
target. -/
structure Arena where
  types : Array Arena.Entry
  names : List (String × TypeId)
deriving DecidableEq, Repr, Inhabited

namespace Arena

abbrev Storing (ε : Type) := StateT Arena (Except (Fault ε))

def size (a : Arena) : Nat := a.types.size

def get? (a : Arena) (id : TypeId) : Option Entry := a.types[id]?

def lookup? (a : Arena) (name : String) : Option TypeId := a.names.lookup name

section

variable {ε : Type}

def fail {α : Type} (e : ε) : Storing ε α := throw (.cause e)

def remember (name : String) (id : TypeId) : Storing ε TypeId :=
  modifyGet fun a => (id, { a with names := (name, id) :: a.names })

def insert (name : String) (e : Entry) : Storing ε TypeId :=
  modifyGet fun a => (a.size, ⟨a.types.push e, (name, a.size) :: a.names⟩)

def entryAt (id : TypeId) : Storing ε Entry := do
  match (← get).get? id with
  | some e => return e
  | none => throw (.outOfRange id)

def overwrite (id : TypeId) (e : Entry) : Storing ε PUnit := do
  let a ← get
  if h : id < a.types.size then set { a with types := a.types.set id e }
  else throw (.outOfRange id)

end

end Arena

namespace Document
open Arena

variable (d : Document)

/-- The place of the type that a name means. The walk takes at most `fuel` steps, and `visited`
holds the aliases on the way. -/
def placeWithin :
    (fuel : Nat) → (visited : List String) → String → Storing ResolutionError TypeId
  | 0, _, name => fail (.schema (.aliasCycle name))
  | fuel + 1, visited, name => do
    let a ← get
    match a.lookup? name, Suffix.split? name, Builtin.ofName? name, d.aliasTarget? name with
    | some id, _, _, _ => return id
    | none, some (suffix, stem), _, _ => do
      let id ← placeWithin fuel visited stem
      match Entry.wrap? suffix id (← entryAt id) with
      | some e => Arena.insert name e
      | none => fail (.schema (.invalidNesting name))
    | none, none, some b, _ => Arena.insert name (.builtin b)
    | none, none, none, none => fail (.unknownType name)
    | none, none, none, some target =>
      if visited.contains name then fail (.schema (.aliasCycle name))
      else do
        let id ← placeWithin fuel (name :: visited) target
        if (← entryAt id).isExtension then fail (.schema (.aliasOfExtension name target))
        else remember name id

def placeOf (name : String) : Storing ResolutionError TypeId :=
  d.placeWithin (d.stepBound name) [] name

def placeReference (referrer : Referrer) (name : String) : Storing SchemaError TypeId :=
  fun a => (d.placeOf name a).mapError (Fault.map (blame referrer))

def fieldPart (s : StructDef) (f : FieldDef) : Storing SchemaError Part := do
  return ⟨f.name, ← d.placeReference (.field s.name f.name) f.type⟩

def fillStruct (s : StructDef) (id : TypeId) : Storing SchemaError PUnit := do
  let fields ← (d.flatten s).mapError Fault.cause
  let parts ← fields.mapM (d.fieldPart s)
  overwrite id (.struct s.name parts)

def memberPart (v : VariantDef) (m : String) : Storing SchemaError Part := do
  return ⟨m, ← d.placeReference (.variant v.name) m⟩

def fillVariant (v : VariantDef) (id : TypeId) : Storing SchemaError PUnit := do
  let parts ← v.members.mapM (d.memberPart v)
  overwrite id (.variant v.name parts)

def placeAlias (a : AliasDef) : Storing SchemaError PUnit := do
  let _ ← d.placeReference (.alias a.name) a.name

def placeEntries (referrer : Name → Referrer) (duplicate : Name → SchemaError) (seen : List Name) :
    List (Name × String) → Storing SchemaError PUnit
  | [] => return ()
  | (name, type) :: rest =>
    if seen.contains name then fail (duplicate name)
    else do
      let _ ← d.placeReference (referrer name) type
      placeEntries referrer duplicate (name :: seen) rest

def placeResult (r : ActionResultDef) : Storing SchemaError PUnit := do
  let _ ← d.placeReference (.actionResult r.name) r.type

/-- Stores the types of a document. Structs and variants get their places first, without parts, so
that parts can refer to any of them. -/
def placeAll : Storing SchemaError PUnit := do
  let structIds ← d.structs.mapM fun s => Arena.insert s.name (.struct s.name [])
  let variantIds ← d.variants.mapM fun v => Arena.insert v.name (.variant v.name [])
  (d.structs.zip structIds).forM fun (s, id) => d.fillStruct s id
  (d.variants.zip variantIds).forM fun (v, id) => d.fillVariant v id
  d.aliases.forM d.placeAlias
  d.placeEntries .action .duplicateAction [] (d.actions.map fun a => (a.name, a.type))
  d.placeEntries .table .duplicateTable [] (d.tables.map fun t => (t.name, t.type))
  d.actionResults.forM d.placeResult

end Document

namespace Arena

/-- The types of a document. -/
def build (d : Document) : Except (Fault SchemaError) Arena := do
  (Document.checkNames [] d.declaredNames).mapError .cause
  let ((), a) ← d.placeAll.run ⟨#[], []⟩
  return a

/-- The types of a document with those that a request needs besides. Their places go on behind those
of the document. -/
structure View where
  table : Arena
  extra : Array Entry
  root : TypeId
deriving DecidableEq, Repr

namespace View

def size (v : View) : Nat := v.table.size + v.extra.size

def get? (v : View) (id : TypeId) : Option Entry :=
  if id < v.table.size then v.table.get? id else v.extra[id - v.table.size]?

abbrev Storing := StateT View (Except (Fault ResolutionError))

def push (e : Entry) : Storing TypeId :=
  modifyGet fun v => (v.size, { v with extra := v.extra.push e })

def entryAt (id : TypeId) : Storing Entry := do
  match (← get).get? id with
  | some e => return e
  | none => throw (.outOfRange id)

def placeWithin : (fuel : Nat) → String → Storing TypeId
  | 0, name => throw (.cause (.unknownType name))
  | fuel + 1, name => do
    let v ← get
    match v.table.lookup? name, Suffix.split? name, Builtin.ofName? name with
    | some id, _, _ => return id
    | none, some (suffix, stem), _ => do
      let id ← placeWithin fuel stem
      match Entry.wrap? suffix id (← entryAt id) with
      | some e => push e
      | none => throw (.cause (.schema (.invalidNesting name)))
    | none, none, some b => push (.builtin b)
    | none, none, none => throw (.cause (.unknownType name))

end View

def view (a : Arena) (name : String) : Except (Fault ResolutionError) View := do
  let (id, v) ← (View.placeWithin (name.length + 1) name).run ⟨a, #[], 0⟩
  return { v with root := id }

end Arena
end ChainKit.Abi
