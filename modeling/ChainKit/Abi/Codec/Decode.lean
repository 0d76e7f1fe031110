import ChainKit.Abi.Config.Basic
import ChainKit.Abi.Error
import ChainKit.Abi.TypeTable

namespace ChainKit.Abi

abbrev Decode := EStateM DecodeError Wire.Reader

namespace Decode

def fail {α : Type} (offset : Nat) (fault : DecodeFault) : Decode α := throw ⟨[], offset, fault⟩

def wire {α : Type} (r : Wire.Read α) : Decode α :=
  EStateM.adaptExcept (fun e => ⟨[], e.offset, .wire e.fault⟩) r

def part {α : Type} (step : Step) (r : Decode α) : Decode α :=
  EStateM.adaptExcept (DecodeError.within step) r

def position : Decode Nat := do return (← get).position

def atEnd : Decode Bool := do return (← get).isEmpty

/-- Reads `count` items of an array and puts them, backwards, before those read already; `i` is the
index of the next one. -/
def items (item : Decode Json) (i : Nat) (done : List Json) : (count : Nat) → Decode (List Json)
  | 0 => return done
  | count + 1 => do
    let v ← part (.item i) item
    items item (i + 1) (v :: done) count

/-- Reads an array: the number of items, then the items. Only items that take no bytes can outnumber
the bytes left. -/
def array (limit : Nat) (item : Decode Json) : Decode Json := do
  let offset ← position
  let count ← wire Wire.Read.varuint
  if limit < count then
    let remaining := (← get).remaining
    if remaining < count then fail offset (.arrayLength count remaining limit)
  return .arr (← items item 0 [] count).reverse

/-- Reads the fields of a struct in order. An extension is left out at the end of the data. -/
def fields (value : Ty → Decode Json) (done : List (String × Json)) :
    List Field → Decode (List (String × Json))
  | [] => return done
  | f :: rest => do
    if f.type.isExtension && (← atEnd) then fields value done rest
    else
      let v ← part (.field f.name) (value f.type)
      fields value (Json.insert done f.name v) rest

def struct (value : Ty → Decode Json) (s : StructType) : Decode Json := do
  return .obj (← fields value [] s.fields)

def variant (value : Ty → Decode Json) (v : VariantType) : Decode Json := do
  let offset ← position
  let tag ← wire Wire.Read.varuint
  match v.members[tag]? with
  | none => fail offset (.tagRange tag v.name v.members.length)
  | some m => return .arr [.str m.name, ← part (.member m.name) (value m.type)]

def optional (inner : Decode Json) : Decode Json := do
  let offset ← position
  let flag ← wire Wire.Read.byte
  if flag = 0 then return .null
  else if flag = 1 then inner
  else fail offset (.optionalFlag flag)

/-- Reads a value that may be missing at the end of the data. -/
def extension (inner : Decode Json) : Decode Json := do
  if ← atEnd then return .null else inner

def value (t : TypeTable) (c : Config) : (levels : Nat) → Ty → Decode Json
  | 0, _ => do fail (← position) .tooDeep
  | levels + 1, type =>
    match type with
    | .builtin b => wire (b.decode c.strictBool)
    | .struct name => struct (value t c levels) ((t.struct? name).getD ⟨name, []⟩)
    | .variant name => variant (value t c levels) ((t.variant? name).getD ⟨name, []⟩)
    | .array item => array c.maxArrayLength (value t c levels item)
    | .optional inner => optional (value t c levels inner)
    | .extension inner => extension (value t c levels inner)

end Decode
end ChainKit.Abi
