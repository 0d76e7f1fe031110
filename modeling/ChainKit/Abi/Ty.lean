import ChainKit.Abi.Builtin

namespace ChainKit.Abi

/-- A type. Structs and variants are known by name, so types may be recursive. -/
inductive Ty where
  | builtin (type : Builtin)
  | struct (name : String)
  | variant (name : String)
  | array (item : Ty)
  | optional (inner : Ty)
  | extension (inner : Ty)
deriving DecidableEq, Repr

namespace Ty

def isExtension : Ty → Bool
  | .extension _ => true
  | _ => false

def isWrapped : Ty → Bool
  | .array _ | .optional _ | .extension _ => true
  | _ => false

end Ty

inductive Suffix where
  | array
  | optional
  | extension
deriving DecidableEq, Repr

namespace Suffix

def text : Suffix → String
  | .array => "[]"
  | .optional => "?"
  | .extension => "$"

/-- Splits the last suffix off a name given backwards. -/
def splitReversed? : List Char → Option (Suffix × List Char)
  | '$' :: inner => some (.extension, inner)
  | '?' :: inner => some (.optional, inner)
  | ']' :: '[' :: inner => some (.array, inner)
  | _ => none

def split? (name : String) : Option (Suffix × String) :=
  (splitReversed? name.toList.reverse).map fun (s, inner) => (s, String.ofList inner.reverse)

/-- The type that the suffix makes of another. Arrays and optional values hold nothing wrapped, and
extensions hold no extension. -/
def wrap? : Suffix → Ty → Option Ty
  | .array, t => if t.isWrapped then none else some (.array t)
  | .optional, t => if t.isWrapped then none else some (.optional t)
  | .extension, t => if t.isExtension then none else some (.extension t)

end Suffix

structure Field where
  name : String
  type : Ty
deriving DecidableEq, Repr

structure StructType where
  name : String
  fields : List Field
deriving DecidableEq, Repr

/-- A member of a variant; its name is the tag in JSON. -/
structure Member where
  name : String
  type : Ty
deriving DecidableEq, Repr

/-- A variant with its members in the order of their wire tags. -/
structure VariantType where
  name : String
  members : List Member
deriving DecidableEq, Repr

end ChainKit.Abi
