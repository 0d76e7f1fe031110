import ChainKit.Abi.Contract

namespace ChainKit.Abi.Standard

def version : String := "eosio::abi/1.1"

def struct (name base : String) (fields : List (String × String)) : StructDef :=
  ⟨name, base, fields.map fun (n, t) => ⟨n, t⟩⟩

def transaction : Document where
  version := version
  aliases :=
    [⟨"account_name", "name"⟩, ⟨"action_name", "name"⟩, ⟨"permission_name", "name"⟩]
  structs :=
    [struct "permission_level" "" [("actor", "account_name"), ("permission", "permission_name")],
      struct "action" ""
        [("account", "account_name"), ("name", "action_name"),
          ("authorization", "permission_level[]"), ("data", "bytes")],
      struct "extension" "" [("type", "uint16"), ("data", "bytes")],
      struct "transaction_header" ""
        [("expiration", "time_point_sec"), ("ref_block_num", "uint16"),
          ("ref_block_prefix", "uint32"), ("max_net_usage_words", "varuint32"),
          ("max_cpu_usage_ms", "uint8"), ("delay_sec", "varuint32")],
      struct "transaction" "transaction_header"
        [("context_free_actions", "action[]"), ("actions", "action[]"),
          ("transaction_extensions", "extension[]")]]

def abiDef : Document where
  version := version
  structs :=
    [struct "type_def" "" [("new_type_name", "string"), ("type", "string")],
      struct "field_def" "" [("name", "string"), ("type", "string")],
      struct "struct_def" "" [("name", "string"), ("base", "string"), ("fields", "field_def[]")],
      struct "action_def" ""
        [("name", "name"), ("type", "string"), ("ricardian_contract", "string")],
      struct "table_def" ""
        [("name", "name"), ("index_type", "string"), ("key_names", "string[]"),
          ("key_types", "string[]"), ("type", "string")],
      struct "clause_pair" "" [("id", "string"), ("body", "string")],
      struct "error_message" "" [("error_code", "uint64"), ("error_msg", "string")],
      struct "variant_def" "" [("name", "string"), ("types", "string[]")],
      struct "action_result_def" "" [("name", "name"), ("result_type", "string")],
      struct "abi_extension" "" [("type", "uint16"), ("data", "bytes")],
      struct "abi_def" ""
        [("version", "string"), ("types", "type_def[]"), ("structs", "struct_def[]"),
          ("actions", "action_def[]"), ("tables", "table_def[]"),
          ("ricardian_clauses", "clause_pair[]"), ("error_messages", "error_message[]"),
          ("abi_extensions", "abi_extension[]"), ("variants", "variant_def[]$"),
          ("action_results", "action_result_def[]$")]]

/-- The contract of a prescribed schema, which is well formed. -/
def contract (d : Document) : Contract := (Contract.ofDocument d).toOption.getD default

def transactionContract : Contract := contract transaction

def abiDefContract : Contract := contract abiDef

def transactionType : String := "transaction"

def abiDefType : String := "abi_def"

end ChainKit.Abi.Standard
