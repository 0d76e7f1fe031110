import ChainKit.Abi.Config.Basic
import ChainKit.Abi.Error
import ChainKit.Abi.TypeTable

namespace ChainKit.Abi.Encode

abbrev Encoder := Json → Except EncodeError Bytes

def fail {α : Type} (fault : EncodeFault) : Except EncodeError α := .error ⟨[], fault⟩

def part (step : Step) (r : Except EncodeError Bytes) : Except EncodeError Bytes :=
  r.mapError (EncodeError.within step)

def items (item : Encoder) (i : Nat) : List Json → Except EncodeError Bytes
  | [] => .ok []
  | v :: rest => do
    let first ← part (.item i) (item v)
    return first ++ (← items item (i + 1) rest)

def array (item : Encoder) : Encoder
  | .arr vs => do
    if 2 ^ 32 ≤ vs.length then fail .arrayTooLong
    return Wire.varuint vs.length ++ (← items item 0 vs)
  | v => fail (.notArray v)

/-- Encodes the fields of a struct in order; `absent` is the first extension that is missing. An
optional field that is missing has no value, and behind a missing extension all must be missing
extensions. -/
def fields (value : Ty → Encoder) (members : List (String × Json)) (absent : Option String) :
    List Field → Except EncodeError Bytes
  | [] => .ok []
  | f :: rest =>
    match Json.member? members f.name, absent, f.type with
    | some v, none, type => do
      let first ← part (.field f.name) (value type v)
      return first ++ (← fields value members none rest)
    | some _, some e, _ => part (.field f.name) (fail (.presentAfterAbsent e))
    | none, absent, .extension _ => fields value members (absent.or (some f.name)) rest
    | none, none, .optional _ => do return 0 :: (← fields value members none rest)
    | none, none, _ => part (.field f.name) (fail .missingField)
    | none, some e, _ => part (.field f.name) (fail (.missingAfterAbsent e))

def struct (value : Ty → Encoder) (s : StructType) : Encoder
  | .obj members => fields value members none s.fields
  | v => fail (.notObject s.name v)

def variant (value : Ty → Encoder) (v : VariantType) : Encoder
  | .arr [.str tag, inner] =>
    match v.members.findIdx? fun m => m.name == tag with
    | none => fail (.notMember tag v.name)
    | some i => do
      if 2 ^ 32 ≤ i then fail .tagTooLarge
      let type := (v.members[i]?.map Member.type).getD (.variant v.name)
      return Wire.varuint i ++ (← part (.member tag) (value type inner))
  | got => fail (.notTagged v.name got)

def value (t : TypeTable) : (levels : Nat) → Ty → Encoder
  | 0, _, _ => fail .tooDeep
  | _ + 1, .builtin b, v => (b.encode v).mapError fun fault => ⟨[], .leaf fault⟩
  | levels + 1, .struct name, v => struct (value t levels) ((t.struct? name).getD ⟨name, []⟩) v
  | levels + 1, .variant name, v => variant (value t levels) ((t.variant? name).getD ⟨name, []⟩) v
  | levels + 1, .array item, v => array (value t levels item) v
  | _ + 1, .optional _, .null => .ok [0]
  | levels + 1, .optional inner, v => do return 1 :: (← value t levels inner v)
  | levels + 1, .extension inner, v => value t levels inner v

end ChainKit.Abi.Encode
