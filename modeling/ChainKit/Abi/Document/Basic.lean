import ChainKit.Name

namespace ChainKit.Abi

structure AliasDef where
  name : String
  target : String
deriving DecidableEq, Repr

structure FieldDef where
  name : String
  type : String
deriving DecidableEq, Repr

/-- A struct, with the name of its base or the empty text. -/
structure StructDef where
  name : String
  base : String
  fields : List FieldDef
deriving DecidableEq, Repr

structure ActionDef where
  name : Name
  type : String
  ricardianContract : String
deriving DecidableEq, Repr

structure TableDef where
  name : Name
  indexType : String
  keyNames : List String
  keyTypes : List String
  type : String
deriving DecidableEq, Repr

structure Clause where
  id : String
  body : String
deriving DecidableEq, Repr

structure ErrorMessage where
  code : UInt64
  message : String
deriving DecidableEq, Repr

structure DocumentExtension where
  type : UInt16
  data : String
deriving DecidableEq, Repr

/-- A tagged union; the wire tag of a member is its place. -/
structure VariantDef where
  name : String
  members : List String
deriving DecidableEq, Repr

structure ActionResultDef where
  name : Name
  type : String
deriving DecidableEq, Repr

/-- A schema document. The last two lists came later, and a document may be without them. -/
structure Document where
  version : String := ""
  aliases : List AliasDef := []
  structs : List StructDef := []
  actions : List ActionDef := []
  tables : List TableDef := []
  clauses : List Clause := []
  errorMessages : List ErrorMessage := []
  extensions : List DocumentExtension := []
  variants? : Option (List VariantDef) := none
  actionResults? : Option (List ActionResultDef) := none
deriving DecidableEq, Repr, Inhabited

namespace Document

def variants (d : Document) : List VariantDef := d.variants?.getD []

def actionResults (d : Document) : List ActionResultDef := d.actionResults?.getD []

def versionStem : String := "eosio::abi/1."

/-- Whether the version is absent or supported. -/
def hasKnownVersion (d : Document) : Bool :=
  d.version = "" || versionStem.toList.isPrefixOf d.version.toList

end Document
end ChainKit.Abi
