import ChainKit.Abi.Document.Basic
import ChainKit.Json.Parser
import ChainKit.Json.Printer
import ChainKit.Json.Record

namespace ChainKit.Abi

open Json (Source Record)

def codeOfText? (s : String) : Option UInt64 :=
  ((Decimal.nat? s.toList).filter (· < 2 ^ 64)).map UInt64.ofNat

/-- Reads an error code, written as a number or as text. -/
def codeOfSource? : Source → Option UInt64
  | .str s => s.bind codeOfText?
  | s => (s.nat? (2 ^ 64)).map UInt64.ofNat

def strings? : Source → Option (List String) := Source.list? Source.string?

def name? : Source → Option Name := Source.text? Name.parse

def strings (ss : List String) : Json := .arr (ss.map .str)

namespace AliasDef

def ofSource? (s : Source) : Option AliasDef := do
  let r ← Record.ofSource? ["new_type_name", "type"] s
  return ⟨← r.required? "new_type_name" Source.string?, ← r.required? "type" Source.string?⟩

def toJson (d : AliasDef) : Json := .obj [("new_type_name", .str d.name), ("type", .str d.target)]

end AliasDef

namespace FieldDef

def ofSource? (s : Source) : Option FieldDef := do
  let r ← Record.ofSource? ["name", "type"] s
  return ⟨← r.required? "name" Source.string?, ← r.required? "type" Source.string?⟩

def toJson (d : FieldDef) : Json := .obj [("name", .str d.name), ("type", .str d.type)]

end FieldDef

namespace StructDef

def ofSource? (s : Source) : Option StructDef := do
  let r ← Record.ofSource? ["name", "base", "fields"] s
  return {
    name := ← r.required? "name" Source.string?
    base := ← r.optional? "base" "" Source.string?
    fields := ← r.optional? "fields" [] (Source.list? FieldDef.ofSource?) }

def toJson (d : StructDef) : Json :=
  .obj [("name", .str d.name), ("base", .str d.base), ("fields", .arr (d.fields.map FieldDef.toJson))]

end StructDef

namespace ActionDef

def ofSource? (s : Source) : Option ActionDef := do
  let r ← Record.ofSource? ["name", "type", "ricardian_contract"] s
  return {
    name := ← r.required? "name" name?
    type := ← r.required? "type" Source.string?
    ricardianContract := ← r.optional? "ricardian_contract" "" Source.string? }

def toJson (d : ActionDef) : Json :=
  .obj [("name", .str d.name.text), ("type", .str d.type),
    ("ricardian_contract", .str d.ricardianContract)]

end ActionDef

namespace TableDef

def ofSource? (s : Source) : Option TableDef := do
  let r ← Record.ofSource? ["name", "index_type", "key_names", "key_types", "type"] s
  return {
    name := ← r.required? "name" name?
    indexType := ← r.optional? "index_type" "" Source.string?
    keyNames := ← r.optional? "key_names" [] strings?
    keyTypes := ← r.optional? "key_types" [] strings?
    type := ← r.required? "type" Source.string? }

def toJson (d : TableDef) : Json :=
  .obj [("name", .str d.name.text), ("index_type", .str d.indexType),
    ("key_names", strings d.keyNames), ("key_types", strings d.keyTypes), ("type", .str d.type)]

end TableDef

namespace Clause

def ofSource? (s : Source) : Option Clause := do
  let r ← Record.ofSource? ["id", "body"] s
  return ⟨← r.required? "id" Source.string?, ← r.required? "body" Source.string?⟩

def toJson (d : Clause) : Json := .obj [("id", .str d.id), ("body", .str d.body)]

end Clause

namespace ErrorMessage

def ofSource? (s : Source) : Option ErrorMessage := do
  let r ← Record.ofSource? ["error_code", "error_msg"] s
  return ⟨← r.required? "error_code" codeOfSource?, ← r.required? "error_msg" Source.string?⟩

def toJson (d : ErrorMessage) : Json :=
  .obj [("error_code", .ofNat d.code.toNat), ("error_msg", .str d.message)]

end ErrorMessage

namespace DocumentExtension

def ofSource? (s : Source) : Option DocumentExtension := do
  let r ← Record.ofSource? ["type", "data"] s
  return ⟨UInt16.ofNat (← r.required? "type" (Source.nat? (2 ^ 16))),
    ← r.required? "data" Source.string?⟩

def toJson (d : DocumentExtension) : Json :=
  .obj [("type", .ofNat d.type.toNat), ("data", .str d.data)]

end DocumentExtension

namespace VariantDef

def ofSource? (s : Source) : Option VariantDef := do
  let r ← Record.ofSource? ["name", "types"] s
  return ⟨← r.required? "name" Source.string?, ← r.optional? "types" [] strings?⟩

def toJson (d : VariantDef) : Json := .obj [("name", .str d.name), ("types", strings d.members)]

end VariantDef

namespace ActionResultDef

def ofSource? (s : Source) : Option ActionResultDef := do
  let r ← Record.ofSource? ["name", "result_type"] s
  return ⟨← r.required? "name" name?, ← r.required? "result_type" Source.string?⟩

def toJson (d : ActionResultDef) : Json :=
  .obj [("name", .str d.name.text), ("result_type", .str d.type)]

end ActionResultDef

namespace Document

def members : List String :=
  ["version", "types", "structs", "actions", "tables", "ricardian_clauses", "error_messages",
    "abi_extensions", "variants", "action_results"]

/-- Reads a document; an absent list is empty, save the last two, which stay absent. -/
def ofSource? (s : Source) : Option Document := do
  let r ← Record.ofSource? members s
  let list {α : Type} (name : String) (item? : Source → Option α) : Option (List α) :=
    r.optional? name [] (Source.list? item?)
  let later {α : Type} (name : String) (item? : Source → Option α) : Option (Option (List α)) :=
    r.optional? name none (Source.nullable? (Source.list? item?))
  return {
    version := ← r.optional? "version" "" Source.string?
    aliases := ← list "types" AliasDef.ofSource?
    structs := ← list "structs" StructDef.ofSource?
    actions := ← list "actions" ActionDef.ofSource?
    tables := ← list "tables" TableDef.ofSource?
    clauses := ← list "ricardian_clauses" Clause.ofSource?
    errorMessages := ← list "error_messages" ErrorMessage.ofSource?
    extensions := ← list "abi_extensions" DocumentExtension.ofSource?
    variants? := ← later "variants" VariantDef.ofSource?
    actionResults? := ← later "action_results" ActionResultDef.ofSource? }

def parse? (s : String) : Option Document := (Source.parse? s).bind ofSource?

def ofJson? (v : Json) : Option Document := ofSource? (.ofJson v)

def toJson (d : Document) : Json :=
  .obj (
    [("version", .str d.version),
      ("types", .arr (d.aliases.map AliasDef.toJson)),
      ("structs", .arr (d.structs.map StructDef.toJson)),
      ("actions", .arr (d.actions.map ActionDef.toJson)),
      ("tables", .arr (d.tables.map TableDef.toJson)),
      ("ricardian_clauses", .arr (d.clauses.map Clause.toJson)),
      ("error_messages", .arr (d.errorMessages.map ErrorMessage.toJson)),
      ("abi_extensions", .arr (d.extensions.map DocumentExtension.toJson))] ++
    (d.variants?.map fun vs => ("variants", .arr (vs.map VariantDef.toJson))).toList ++
    (d.actionResults?.map fun rs => ("action_results", .arr (rs.map ActionResultDef.toJson))).toList)

def text (d : Document) : String := Json.render d.toJson

end Document
end ChainKit.Abi
