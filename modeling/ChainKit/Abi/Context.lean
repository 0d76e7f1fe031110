import ChainKit.Abi.Config.Json
import ChainKit.Abi.Document.Binary
import ChainKit.SortedMap

namespace ChainKit.Abi

structure Context where
  config : Config
  contracts : SortedMap Name Contract
  lastError : Option String
deriving Inhabited

namespace Context

/-- An operation on a context. What was changed before a failure stays changed. -/
abbrev Op := EStateM Error Context

def new (config : Config) : Context := ⟨config, .empty, none⟩

def names (c : Context) : List Name := c.contracts.keys

def document? (c : Context) (contract : Name) : Option Document :=
  (c.contracts.find? contract).map Contract.document

def debug (c : Context) : String :=
  "AbiContext \x7b config: " ++ c.config.debug ++ ", contracts: [" ++
    ", ".intercalate (c.names.map Name.debug) ++ "] \x7d"

def clearError (c : Context) : Context := { c with lastError := none }

def recorded {α : Type} (op : Op α) : Op α := fun c =>
  match op c with
  | .ok a c => .ok a c
  | .error e c => .error e { c with lastError := some e.message }

def lift {α : Type} (r : Except Error α) : Op α :=
  match r with
  | .ok a => return a
  | .error e => throw e

def limits : Op Config := do return (← get).config

/-- Checks a document and loads it in place of the one loaded before. -/
def install (contract : Name) (d : Document) : Op Contract := do
  let loaded ← lift ((Contract.ofDocument d).mapError .schema)
  modify fun c => { c with contracts := c.contracts.insert contract loaded }
  return loaded

def loaded (contract : Name) : Op Contract := do
  match (← get).contracts.find? contract with
  | some c => return c
  | none => throw (.unknownContract contract)

/-- Loads a document unless it is the one loaded already. -/
def ensure (contract : Name) (d : Document) : Op Contract := do
  match (← get).contracts.find? contract with
  | some c => if c.document = d then return c else install contract d
  | none => install contract d

def parseDocument (s : String) : Op Document :=
  match Document.parse? s with
  | some d => return d
  | none => throw (.schema .malformedText)

def parseValue (type s : String) : Op Json :=
  match Json.parse? s with
  | some v => return v
  | none => throw (.encode type ⟨[], .malformedText⟩)

def parseHex (type s : String) : Op Bytes :=
  match Hex.decode s with
  | .ok bs => return bs
  | .error e => throw (.decode type ⟨[], 0, .hex e⟩)

def unpackDocument (bs : Bytes) : Op Document := do lift (Document.unpack (← limits) bs)

def encodeWith (c : Contract) (type : String) (v : Json) : Op Bytes := do
  lift (c.encode (← limits) type v)

def decodeWith (c : Contract) (type : String) (bs : Bytes) : Op Json := do
  lift (c.decode (← limits) type bs)

def setAbi (contract : Name) (json : String) : Op Contract :=
  recorded do install contract (← parseDocument json)

def setDocument (contract : Name) (d : Document) : Op Contract := recorded (install contract d)

def setBinary (contract : Name) (bs : Bytes) : Op Contract :=
  recorded do install contract (← unpackDocument bs)

def setHex (contract : Name) (hex : String) : Op Contract :=
  recorded do install contract (← unpackDocument (← parseHex Standard.abiDefType hex))

def remove (contract : Name) : Op Bool := do
  let c ← get
  set { c with contracts := c.contracts.erase contract }
  return c.contracts.contains contract

def actionType (contract action : Name) : Op String :=
  recorded do
    match (← loaded contract).actionType? action with
    | some type => return type
    | none => throw (.unknownEntry contract .action action)

def tableType (contract table : Name) : Op String :=
  recorded do
    match (← loaded contract).tableType? table with
    | some type => return type
    | none => throw (.unknownEntry contract .table table)

/-- Encodes JSON text. The text is read before the contract is looked up. -/
def encodeText (contract : Name) (type json : String) : Op Bytes :=
  recorded do
    let v ← parseValue type json
    encodeWith (← loaded contract) type v

def encode (contract : Name) (type : String) (v : Json) : Op Bytes :=
  recorded do encodeWith (← loaded contract) type v

def decode (contract : Name) (type : String) (bs : Bytes) : Op Json :=
  recorded do decodeWith (← loaded contract) type bs

def decodeHex (contract : Name) (type hex : String) : Op Json :=
  recorded do
    let bs ← parseHex type hex
    decodeWith (← loaded contract) type bs

/-- Encodes JSON text as the payload of an action, or as a type, of a given document, which is
loaded unless it is loaded already. -/
def serialize (contract : Name) (actionOrType json : String) (d : Document) : Op Bytes :=
  recorded do
    let v ← parseValue actionOrType json
    let c ← ensure contract d
    encodeWith c (c.actionOrType actionOrType) v

def deserialize (contract : Name) (actionOrType hex : String) (d : Document) : Op Json :=
  recorded do
    let bs ← parseHex actionOrType hex
    let c ← ensure contract d
    decodeWith c (c.actionOrType actionOrType) bs

def packTransaction (v : Json) : Op Bytes :=
  recorded (encodeWith Standard.transactionContract Standard.transactionType v)

def unpackTransaction (bs : Bytes) : Op Json :=
  recorded (decodeWith Standard.transactionContract Standard.transactionType bs)

def serializeTransaction (json : String) : Op Bytes :=
  recorded do
    let v ← parseValue Standard.transactionType json
    encodeWith Standard.transactionContract Standard.transactionType v

def deserializeTransaction (hex : String) : Op Json :=
  recorded do
    let bs ← parseHex Standard.transactionType hex
    decodeWith Standard.transactionContract Standard.transactionType bs

def serializeAbi (d : Document) : Op Bytes := recorded do lift (d.pack (← limits))

def deserializeAbi (bs : Bytes) : Op Document := recorded (unpackDocument bs)

def nameValue (s : String) : Op UInt64 :=
  recorded do
    match Name.parse s with
    | .ok n => return n.value
    | .error e => throw (.encode "name" ⟨[], .name e⟩)

end Context
end ChainKit.Abi
