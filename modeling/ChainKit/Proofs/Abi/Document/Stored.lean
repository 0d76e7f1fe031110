import ChainKit.Proofs.Abi.Context.Operation
import ChainKit.Proofs.Abi.Plain
import ChainKit.Proofs.Abi.Record

namespace ChainKit.Abi
set_option autoImplicit true
open Json (Source Record)

namespace Standard

def abiDefStructs : List StructType :=
  [⟨"type_def", [⟨"new_type_name", .builtin .string⟩, ⟨"type", .builtin .string⟩]⟩,
    ⟨"field_def", [⟨"name", .builtin .string⟩, ⟨"type", .builtin .string⟩]⟩,
    ⟨"struct_def", [⟨"name", .builtin .string⟩, ⟨"base", .builtin .string⟩,
      ⟨"fields", .array (.struct "field_def")⟩]⟩,
    ⟨"action_def", [⟨"name", .builtin .name⟩, ⟨"type", .builtin .string⟩,
      ⟨"ricardian_contract", .builtin .string⟩]⟩,
    ⟨"table_def", [⟨"name", .builtin .name⟩, ⟨"index_type", .builtin .string⟩,
      ⟨"key_names", .array (.builtin .string)⟩, ⟨"key_types", .array (.builtin .string)⟩,
      ⟨"type", .builtin .string⟩]⟩,
    ⟨"clause_pair", [⟨"id", .builtin .string⟩, ⟨"body", .builtin .string⟩]⟩,
    ⟨"error_message", [⟨"error_code", .builtin (.uint .w64)⟩, ⟨"error_msg", .builtin .string⟩]⟩,
    ⟨"variant_def", [⟨"name", .builtin .string⟩, ⟨"types", .array (.builtin .string)⟩]⟩,
    ⟨"action_result_def", [⟨"name", .builtin .name⟩, ⟨"result_type", .builtin .string⟩]⟩,
    ⟨"abi_extension", [⟨"type", .builtin (.uint .w16)⟩, ⟨"data", .builtin .bytes⟩]⟩,
    ⟨"abi_def", [⟨"version", .builtin .string⟩, ⟨"types", .array (.struct "type_def")⟩,
      ⟨"structs", .array (.struct "struct_def")⟩, ⟨"actions", .array (.struct "action_def")⟩,
      ⟨"tables", .array (.struct "table_def")⟩,
      ⟨"ricardian_clauses", .array (.struct "clause_pair")⟩,
      ⟨"error_messages", .array (.struct "error_message")⟩,
      ⟨"abi_extensions", .array (.struct "abi_extension")⟩,
      ⟨"variants", .extension (.array (.struct "variant_def"))⟩,
      ⟨"action_results", .extension (.array (.struct "action_result_def"))⟩]⟩]

end Standard

def DocumentExtension.lowered (d : DocumentExtension) : DocumentExtension :=
  { d with data := d.data.toLower }

section Parts

variable {t : TypeTable} (ht : t.structs = Standard.abiDefStructs)
include ht

theorem AliasDef.restores (d : AliasDef) :
    Restores t (.struct "type_def") d.toJson AliasDef.ofSource? d := by
  apply Restores.record (TypeTable.struct?_eq ht rfl) (by decide) (by decide)
  intro r hr
  rw [hr.required? "new_type_name" (.string d.name) (by decide) rfl,
    hr.required? "type" (.string d.target) (by decide) rfl]
  rfl

theorem FieldDef.restores (d : FieldDef) :
    Restores t (.struct "field_def") d.toJson FieldDef.ofSource? d := by
  apply Restores.record (TypeTable.struct?_eq ht rfl) (by decide) (by decide)
  intro r hr
  rw [hr.required? "name" (.string d.name) (by decide) rfl,
    hr.required? "type" (.string d.type) (by decide) rfl]
  rfl

theorem StructDef.restores (d : StructDef) :
    Restores t (.struct "struct_def") d.toJson StructDef.ofSource? d := by
  apply Restores.record (TypeTable.struct?_eq ht rfl) (by decide) (by decide)
  intro r hr
  have hfields := Restores.list (FieldDef.restores ht) d.fields
  rw [hr.required? "name" (.string d.name) (by decide) rfl,
    hr.optional? "base" "" (.string d.base) (by decide) rfl,
    hr.optional? "fields" [] hfields (by decide) rfl]
  rfl

theorem ActionDef.restores (d : ActionDef) :
    Restores t (.struct "action_def") d.toJson ActionDef.ofSource? d := by
  apply Restores.record (TypeTable.struct?_eq ht rfl) (by decide) (by decide)
  intro r hr
  rw [hr.required? "name" (.name d.name) (by decide) rfl,
    hr.required? "type" (.string d.type) (by decide) rfl,
    hr.optional? "ricardian_contract" "" (.string d.ricardianContract) (by decide) rfl]
  rfl

theorem TableDef.restores (d : TableDef) :
    Restores t (.struct "table_def") d.toJson TableDef.ofSource? d := by
  apply Restores.record (TypeTable.struct?_eq ht rfl) (by decide) (by decide)
  intro r hr
  rw [hr.required? "name" (.name d.name) (by decide) rfl,
    hr.optional? "index_type" "" (.string d.indexType) (by decide) rfl,
    hr.optional? "key_names" [] (.strings d.keyNames) (by decide) rfl,
    hr.optional? "key_types" [] (.strings d.keyTypes) (by decide) rfl,
    hr.required? "type" (.string d.type) (by decide) rfl]
  rfl

theorem Clause.restores (d : Clause) :
    Restores t (.struct "clause_pair") d.toJson Clause.ofSource? d := by
  apply Restores.record (TypeTable.struct?_eq ht rfl) (by decide) (by decide)
  intro r hr
  rw [hr.required? "id" (.string d.id) (by decide) rfl,
    hr.required? "body" (.string d.body) (by decide) rfl]
  rfl

theorem ErrorMessage.restores (d : ErrorMessage) :
    Restores t (.struct "error_message") d.toJson ErrorMessage.ofSource? d := by
  apply Restores.record (TypeTable.struct?_eq ht rfl) (by decide) (by decide)
  intro r hr
  rw [hr.required? "error_code" (.code d.code) (by decide) rfl,
    hr.required? "error_msg" (.string d.message) (by decide) rfl]
  rfl

theorem DocumentExtension.restores (d : DocumentExtension) :
    Restores t (.struct "abi_extension") d.toJson DocumentExtension.ofSource? d.lowered := by
  apply Restores.record (TypeTable.struct?_eq ht rfl) (by decide) (by decide)
  intro r hr
  rw [hr.required? "type" (.uint .w16 d.type.toNat_lt rfl rfl) (by decide) rfl,
    hr.required? "data" (.hex d.data) (by decide) rfl]
  simp [lowered]

theorem VariantDef.restores (d : VariantDef) :
    Restores t (.struct "variant_def") d.toJson VariantDef.ofSource? d := by
  apply Restores.record (TypeTable.struct?_eq ht rfl) (by decide) (by decide)
  intro r hr
  rw [hr.required? "name" (.string d.name) (by decide) rfl,
    hr.optional? "types" [] (.strings d.members) (by decide) rfl]
  rfl

theorem ActionResultDef.restores (d : ActionResultDef) :
    Restores t (.struct "action_result_def") d.toJson ActionResultDef.ofSource? d := by
  apply Restores.record (TypeTable.struct?_eq ht rfl) (by decide) (by decide)
  intro r hr
  rw [hr.required? "name" (.name d.name) (by decide) rfl,
    hr.required? "result_type" (.string d.type) (by decide) rfl]
  rfl

theorem Document.restores (d : Document) :
    Restores t (.struct "abi_def") d.toJson Document.ofSource?
      { d with extensions := d.extensions.map DocumentExtension.lowered } := by
  apply Restores.record (TypeTable.struct?_eq ht rfl) (by decide) (by decide)
  intro r hr
  have hversion := hr.optional? "version" "" (.string d.version) (by decide) rfl
  have haliases := hr.optional? "types" [] (.list (AliasDef.restores ht) d.aliases) (by decide) rfl
  have hstructs :=
    hr.optional? "structs" [] (.list (StructDef.restores ht) d.structs) (by decide) rfl
  have hactions :=
    hr.optional? "actions" [] (.list (ActionDef.restores ht) d.actions) (by decide) rfl
  have htables := hr.optional? "tables" [] (.list (TableDef.restores ht) d.tables) (by decide) rfl
  have hclauses :=
    hr.optional? "ricardian_clauses" [] (.list (Clause.restores ht) d.clauses) (by decide) rfl
  have herrors := hr.optional? "error_messages" []
    (.list (ErrorMessage.restores ht) d.errorMessages) (by decide) rfl
  have hextensions := hr.optional? "abi_extensions" []
    (.map (DocumentExtension.restores ht) d.extensions) (by decide) rfl
  have hvariants := hr.later? "variants" d.variants? rfl (.list (VariantDef.restores ht))
    (by cases d.variants? <;> cases d.actionResults? <;> rfl) (by decide)
  have hresults := hr.later? "action_results" d.actionResults? rfl
    (.list (ActionResultDef.restores ht))
    (by cases d.variants? <;> cases d.actionResults? <;> rfl) (by decide)
  simp only [hversion, haliases, hstructs, hactions, htables, hclauses, herrors, hextensions,
    hvariants, hresults]
  rfl

end Parts

namespace Standard

theorem types_abiDef : abiDefContract.types.structs = abiDefStructs ∧
    abiDefContract.types.variants = [] ∧
    abiDefContract.types.view abiDefType = .ok (.struct "abi_def") := by
  decide +kernel

theorem hasPlainFields_abiDef : abiDefContract.types.HasPlainFields "abi_def" := by
  apply TypeTable.HasPlainFields.of_structs types_abiDef.1 types_abiDef.2.1
  all_goals decide

end Standard

namespace Document

/-- The document as it comes back from its packed form: with a list of variants if it has one of
action results, and with payloads in lower case. -/
def unpacked (d : Document) : Document :=
  { d with
    extensions := d.extensions.map DocumentExtension.lowered
    variants? := if d.actionResults?.isSome then some (d.variants?.getD []) else d.variants? }

theorem unpacked_eq (d : Document) :
    { d.withVariants with
      extensions := d.withVariants.extensions.map DocumentExtension.lowered } = d.unpacked := by
  obtain ⟨version, aliases, structs, actions, tables, clauses, messages, extensions, variants?,
    results?⟩ := d
  cases variants? <;> cases results? <;> rfl

theorem unpack_pack {d : Document} (h : d.pack config = .ok bs) :
    unpack config bs = .ok d.unpacked := by
  rw [pack] at h
  obtain ⟨content, hcontent, hdecode⟩ :=
    Contract.decode_encode_of_plain Standard.types_abiDef.2.2 Standard.hasPlainFields_abiDef h
  have hread : ofJson? content.toJson = some d.unpacked := by
    rw [← unpacked_eq]
    exact Document.restores Standard.types_abiDef.1 d.withVariants _ _ hcontent
  rw [unpack, hdecode]
  simp only [bind, Except.bind, hread]
  rfl

end Document
namespace Context

theorem serializeAbi_eq_ok : serializeAbi d c = .ok bs c' ↔ d.pack c.config = .ok bs ∧ c' = c := by
  rw [serializeAbi, settle_recorded (packDocument_apply d), settle_noting_eq_ok]

theorem deserializeAbi_eq_ok :
    deserializeAbi bs c = .ok d c' ↔ Document.unpack c.config bs = .ok d ∧ c' = c := by
  rw [deserializeAbi, settle_recorded (unpackDocument_apply bs), settle_noting_eq_ok]

/-- A document that is packed is unpacked again under the same limits, save that a missing list of
variants is empty if there is a list of action results, and that payloads are in lower case. -/
theorem deserializeAbi_serializeAbi {d : Document} {c c' c₂ : Context}
    (h : serializeAbi d c = .ok bs c') (hconfig : c₂.config = c.config) :
    c' = c ∧ deserializeAbi bs c₂ = .ok d.unpacked c₂ := by
  obtain ⟨hpack, hc⟩ := serializeAbi_eq_ok.mp h
  refine ⟨hc, deserializeAbi_eq_ok.mpr ⟨?_, rfl⟩⟩
  rw [hconfig]
  exact Document.unpack_pack hpack

def sampleDocument : Document where
  errorMessages := [⟨7, "no"⟩]
  extensions := [⟨1, "BEEF"⟩]
  actionResults? := some [⟨⟨0xc2a6900000000000⟩, "bool"⟩]

def samplePacked : Bytes :=
  [0, 0, 0, 0, 0, 0, 1, 7, 0, 0, 0, 0, 0, 0, 0, 2, 0x6e, 0x6f, 1, 1, 0, 2, 0xbe, 0xef, 0,
    1, 0, 0, 0, 0, 0, 0x90, 0xa6, 0xc2, 4, 0x62, 0x6f, 0x6f, 0x6c]

theorem deserializeAbi_serializeAbi_sample :
    serializeAbi sampleDocument (.new {}) = .ok samplePacked (.new {}) ∧
    deserializeAbi samplePacked (.new {}) = .ok sampleDocument.unpacked (.new {}) ∧
    sampleDocument.unpacked =
      { sampleDocument with extensions := [⟨1, "beef"⟩], variants? := some [] } := by
  have hpack : sampleDocument.pack {} = .ok samplePacked :=
    Result.toOption_eq_some.mp (by decide +kernel)
  have hserialize : serializeAbi sampleDocument (.new {}) = .ok samplePacked (.new {}) :=
    serializeAbi_eq_ok.mpr ⟨hpack, rfl⟩
  obtain ⟨-, hdeserialize⟩ := deserializeAbi_serializeAbi hserialize rfl
  exact ⟨hserialize, hdeserialize, by decide +kernel⟩

end Context
end ChainKit.Abi
