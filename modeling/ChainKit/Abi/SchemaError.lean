import ChainKit.Name

namespace ChainKit.Abi

inductive Referrer where
  | field (struct field : String)
  | variant (name : String)
  | alias (name : String)
  | action (name : Name)
  | table (name : Name)
  | actionResult (name : Name)
deriving DecidableEq, Repr

def Referrer.phrase : Referrer → String
  | .field s f => "field \"" ++ s ++ "." ++ f ++ "\""
  | .variant n => "variant \"" ++ n ++ "\""
  | .alias n => "alias \"" ++ n ++ "\""
  | .action n => "action \"" ++ n.text ++ "\""
  | .table n => "table \"" ++ n.text ++ "\""
  | .actionResult n => "action result \"" ++ n.text ++ "\""

inductive SchemaError where
  | malformedText
  | malformedBinary
  | unsupportedVersion (version : String)
  | emptyName
  | redefinesBuiltin (name : String)
  | suffixInName (name : String)
  | duplicateType (name : String)
  | duplicateAction (name : Name)
  | duplicateTable (name : Name)
  | unknownReference (referrer : Referrer) (name : String)
  | aliasCycle (name : String)
  | invalidNesting (name : String)
  | aliasOfExtension (name target : String)
  | baseNotStruct (base struct : String)
  | inheritsFromItself (struct : String)
deriving DecidableEq, Repr

def SchemaError.message : SchemaError → String
  | .malformedText => "malformed ABI JSON"
  | .malformedBinary => "malformed binary ABI"
  | .unsupportedVersion v => "unsupported ABI version \"" ++ v ++ "\""
  | .emptyName => "type definition with an empty name"
  | .redefinesBuiltin n => "type \"" ++ n ++ "\" redefines a built-in"
  | .suffixInName n => "type name \"" ++ n ++ "\" has a suffix"
  | .duplicateType n => "type \"" ++ n ++ "\" is defined twice"
  | .duplicateAction n => "action \"" ++ n.text ++ "\" is defined twice"
  | .duplicateTable n => "table \"" ++ n.text ++ "\" is defined twice"
  | .unknownReference r n => r.phrase ++ " references unknown type \"" ++ n ++ "\""
  | .aliasCycle n => "alias cycle through \"" ++ n ++ "\""
  | .invalidNesting n => "invalid nesting in type \"" ++ n ++ "\""
  | .aliasOfExtension n target =>
    "alias \"" ++ n ++ "\" targets binary extension \"" ++ target ++ "\""
  | .baseNotStruct base struct => "base \"" ++ base ++ "\" of struct \"" ++ struct ++ "\" is not a struct"
  | .inheritsFromItself struct => "struct \"" ++ struct ++ "\" inherits from itself"

end ChainKit.Abi
