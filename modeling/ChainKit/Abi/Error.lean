import ChainKit.Abi.Leaf
import ChainKit.Abi.SchemaError

namespace ChainKit.Abi

inductive Step where
  | field (name : String)
  | item (index : Nat)
  | member (name : String)
deriving DecidableEq, Repr

namespace Step

/-- The text of a path, which a dot separates from a field behind it unless it is empty. -/
def render (before : String) : Step → String
  | .field name => if before = "" then name else before ++ "." ++ name
  | .item i => before ++ "[" ++ toString i ++ "]"
  | .member name => before ++ "<" ++ name ++ ">"

def path (root : String) (steps : List Step) : String := steps.foldl render root

end Step

inductive EncodeFault where
  | tooDeep
  | notArray (got : Json)
  | arrayTooLong
  | notObject (struct : String) (got : Json)
  | missingField
  | presentAfterAbsent (extension : String)
  | missingAfterAbsent (extension : String)
  | notTagged (variant : String) (got : Json)
  | notMember (tag variant : String)
  | tagTooLarge
  | leaf (fault : Leaf.Fault)
  | malformedText
  | name (error : Name.Error)

def EncodeFault.message : EncodeFault → String
  | .tooDeep => "recursion limit reached"
  | .notArray got => "expected an array, got " ++ Leaf.describe got
  | .arrayTooLong => "array too long"
  | .notObject s got =>
    "expected an object for struct \"" ++ s ++ "\", got " ++ Leaf.describe got
  | .missingField => "missing field"
  | .presentAfterAbsent e => "present after absent binary extension \"" ++ e ++ "\""
  | .missingAfterAbsent e => "missing after absent binary extension \"" ++ e ++ "\""
  | .notTagged v got =>
    "expected [\"type\", value] for variant \"" ++ v ++ "\", got " ++ Leaf.describe got
  | .notMember tag v => "\"" ++ tag ++ "\" is not a member of variant \"" ++ v ++ "\""
  | .tagTooLarge => "variant index too large"
  | .leaf fault => fault.message
  | .malformedText => "malformed JSON"
  | .name e => e.message

/-- A fault and the way to the part that has it. -/
structure EncodeError where
  steps : List Step
  fault : EncodeFault

def EncodeError.within (step : Step) (e : EncodeError) : EncodeError :=
  { e with steps := step :: e.steps }

inductive DecodeFault where
  | tooDeep
  | wire (fault : Wire.Fault)
  | tagRange (tag : Nat) (variant : String) (members : Nat)
  | arrayLength (count remaining limit : Nat)
  | optionalFlag (byte : UInt8)
  | extraData (count : Nat)
  | hex (error : Hex.Error)
deriving DecidableEq, Repr

def DecodeFault.message : DecodeFault → String
  | .tooDeep => "recursion limit reached"
  | .wire fault => fault.message
  | .tagRange tag v n =>
    "tag " ++ toString tag ++ " out of range for variant \"" ++ v ++ "\" with " ++ toString n ++
      " members"
  | .arrayLength count remaining limit =>
    "array length " ++ toString count ++ " exceeds the " ++ toString remaining ++
      " bytes left and the limit of " ++ toString limit
  | .optionalFlag b => "invalid optional flag 0x" ++ Hex.encode [b]
  | .extraData n => toString n ++ " bytes of extra data"
  | .hex e => "invalid hex: " ++ e.message

/-- A fault, the way to the part that has it, and its position in the data. -/
structure DecodeError where
  steps : List Step
  offset : Nat
  fault : DecodeFault
deriving DecidableEq, Repr

def DecodeError.within (step : Step) (e : DecodeError) : DecodeError :=
  { e with steps := step :: e.steps }

inductive EntryKind where
  | action
  | table
deriving DecidableEq, Repr

def EntryKind.text : EntryKind → String
  | .action => "action"
  | .table => "table"

inductive Error where
  | schema (error : SchemaError)
  | unknownType (name : String)
  | unknownContract (contract : Name)
  | unknownEntry (contract : Name) (kind : EntryKind) (name : Name)
  | encode (root : String) (error : EncodeError)
  | decode (root : String) (error : DecodeError)

/-- The text of a failure. Where a JSON text, a UTF-8 text or a document is malformed, what its reader
adds behind the colon is left out. -/
def Error.message : Error → String
  | .schema e => "schema error: " ++ e.message
  | .unknownType n => "unknown type \"" ++ n ++ "\""
  | .unknownContract c => "no ABI loaded for contract \"" ++ c.text ++ "\""
  | .unknownEntry c kind n =>
    "contract \"" ++ c.text ++ "\" has no " ++ kind.text ++ " \"" ++ n.text ++ "\""
  | .encode root e => "encode error at " ++ Step.path root e.steps ++ ": " ++ e.fault.message
  | .decode root e =>
    "decode error at " ++ Step.path root e.steps ++ " (offset " ++ toString e.offset ++ "): " ++
      e.fault.message

end ChainKit.Abi
