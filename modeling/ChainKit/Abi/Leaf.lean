import ChainKit.Abi.Builtin
import ChainKit.Checksum
import ChainKit.Json.Printer
import ChainKit.Key.Text
import ChainKit.Number.Reading
import ChainKit.Text.Utf8
import ChainKit.Time.Basic
import ChainKit.Token.ExtendedAsset
import ChainKit.Wire.Varint

namespace ChainKit.Abi

inductive Leaf where
  | bool (value : Bool)
  | int (width : Width) (value : Int)
  | uint (width : Width) (value : Nat)
  | varint (value : Int)
  | varuint (value : Nat)
  | float32 (bits : UInt32)
  | float64 (value : Binary64)
  | float128 (value : Blob 16)
  | timePoint (value : TimePoint)
  | timePointSec (value : TimePointSec)
  | blockTimestamp (value : BlockTimestamp)
  | name (value : Name)
  | bytes (value : Bytes)
  | string (value : String)
  | checksum (size : DigestSize) (value : Checksum size.bytes)
  | publicKey (value : PublicKey)
  | privateKey (value : PrivateKey)
  | signature (value : Signature)
  | symbol (value : Symbol)
  | symbolCode (value : SymbolCode)
  | asset (value : Asset)
  | extendedAsset (value : ExtendedAsset)
deriving DecidableEq

namespace Leaf

inductive Expected where
  | boolean
  | integer
  | unsigned
  | number
  | hex
  | time
  | name
  | string
  | publicKey
  | privateKey
  | signature
  | symbol
  | symbolCode
  | asset
  | extendedAsset
deriving DecidableEq, Repr

def Expected.phrase : Expected → String
  | .boolean => "a boolean"
  | .integer => "an integer"
  | .unsigned => "an unsigned integer"
  | .number => "a number"
  | .hex => "a hex string"
  | .time => "a time string"
  | .name => "a name string"
  | .string => "a string"
  | .publicKey => "a public key string"
  | .privateKey => "a private key string"
  | .signature => "a signature string"
  | .symbol => "a symbol string"
  | .symbolCode => "a symbol code string"
  | .asset => "an asset string"
  | .extendedAsset => "an extended asset object"

inductive Fault where
  | expected (what : Expected) (got : Json)
  | intRange (value : Int) (type : Builtin)
  | floatRange (value : Binary64)
  | hex (cause : Hex.Error)
  | hexLength (wanted actual : Nat)
  | tooLong (length : Nat)
  | missing (field : String)
  | name (cause : Name.Error)
  | token (cause : Token.Error)
  | time (cause : Time.Error)
  | checksum (cause : Checksum.Error)
  | key (cause : Key.Error)

def describe : Json → String
  | .null => "null"
  | .bool _ => "a boolean"
  | .num n => "number " ++ n.text
  | .str s => "string \"" ++ s ++ "\""
  | .arr _ => "an array"
  | .obj _ => "an object"

def Fault.message : Fault → String
  | .expected what got => "expected " ++ what.phrase ++ ", got " ++ describe got
  | .intRange v type => Decimal.showInt v ++ " is out of range for " ++ type.typeName
  | .floatRange v => v.plainText ++ " is out of range for float32"
  | .hex e => "invalid hex: " ++ e.message
  | .hexLength wanted actual =>
    "expected " ++ toString wanted ++ " bytes of hex, got " ++ toString actual
  | .tooLong n => "length " ++ toString n ++ " exceeds varuint32"
  | .missing field => "missing field \"" ++ field ++ "\""
  | .name e => e.message
  | .token e => e.message
  | .time e => e.message
  | .checksum e => e.message
  | .key e => e.message

def parseString (what : Expected) : Json → Except Fault String
  | .str s => .ok s
  | v => .error (.expected what v)

def parseText {α ε : Type} (what : Expected) (parse : String → Except ε α) (fault : ε → Fault)
    (v : Json) : Except Fault α := do
  (parse (← parseString what v)).mapError fault

def parseInt (v : Json) : Except Fault Int :=
  let read : Option Int :=
    match v with
    | .num (.int i) => some i
    | .str s => (Decimal.int? (Text.trim s.toList)).filter fun i => -(2 ^ 127) ≤ i ∧ i < 2 ^ 127
    | _ => none
  match read with
  | some i => .ok i
  | none => .error (.expected .integer v)

def parseNat (v : Json) : Except Fault Nat :=
  let read : Option Nat :=
    match v with
    | .num (.int i) => if 0 ≤ i then some i.toNat else none
    | .str s => (Decimal.nat? (Text.trim s.toList)).filter (· < 2 ^ 128)
    | _ => none
  match read with
  | some n => .ok n
  | none => .error (.expected .unsigned v)

def fitsSigned (bits : Nat) (i : Int) : Bool := -(2 ^ (bits - 1)) ≤ i && i < 2 ^ (bits - 1)

def parseSigned (type : Builtin) (bits : Nat) (v : Json) : Except Fault Int := do
  let i ← parseInt v
  if fitsSigned bits i then return i else throw (.intRange i type)

def parseUnsigned (type : Builtin) (bits : Nat) (v : Json) : Except Fault Nat := do
  let n ← parseNat v
  if n < 2 ^ bits then return n else throw (.intRange n type)

/-- Reads a number, written as a number or as text. Three words are matched exactly, before blanks
are dropped. -/
def parseFloat (v : Json) : Except Fault Binary64 :=
  let read : Option Binary64 :=
    match v with
    | .num (.int i) => some (.ofInt i)
    | .num (.float x) => some x
    | .str "NaN" => some (.nan false)
    | .str "Infinity" => some (.infinity false)
    | .str "-Infinity" => some (.infinity true)
    | .str s => Binary64.ofChars? (Text.trim s.toList)
    | _ => none
  match read with
  | some x => .ok x
  | none => .error (.expected .number v)

/-- Reads a number and rounds it to single precision. A finite number must not become infinite. -/
def parseSingle (v : Json) : Except Fault UInt32 := do
  let wide ← parseFloat v
  let bits := wide.toSingleBits
  let f := BinaryFormat.single
  if wide.isFinite ∧ bits.toNat % f.signBit = f.infinity then throw (.floatRange wide)
  return bits

def parseHex : Json → Except Fault Bytes := parseText .hex Hex.decode .hex

def parseBlob (n : Nat) (v : Json) : Except Fault (Blob n) := do
  let bs ← parseHex v
  match Blob.ofBytes? n bs with
  | some b => return b
  | none => throw (.hexLength n bs.length)

/-- Checks that a length fits in 32 bits. -/
def checkLength (bs : Bytes) : Except Fault Unit :=
  if bs.length < 2 ^ 32 then .ok () else .error (.tooLong bs.length)

def parseAsset : Json → Except Fault Asset := parseText .asset Asset.parse .token

def parseName : Json → Except Fault Name := parseText .name Name.parse .name

/-- Reads an object of a quantity and a contract; both must be there before either is read. -/
def parseExtendedAsset (v : Json) : Except Fault ExtendedAsset :=
  match v with
  | .obj members =>
    match Json.member? members "quantity", Json.member? members "contract" with
    | none, _ => .error (.missing "quantity")
    | _, none => .error (.missing "contract")
    | some quantity, some contract => do
      return ⟨← parseAsset quantity, ← parseName contract⟩
  | v => .error (.expected .extendedAsset v)

def parse (type : Builtin) (v : Json) : Except Fault Leaf :=
  match type with
  | .bool =>
    match v with
    | .bool b => .ok (.bool b)
    | v => .error (.expected .boolean v)
  | .int w => (parseSigned type w.bits v).map (.int w)
  | .uint w => (parseUnsigned type w.bits v).map (.uint w)
  | .varint => (parseSigned type 32 v).map .varint
  | .varuint => (parseUnsigned type 32 v).map .varuint
  | .float32 => (parseSingle v).map .float32
  | .float64 => (parseFloat v).map .float64
  | .float128 => (parseBlob 16 v).map .float128
  | .timePoint => (parseText .time TimePoint.parse .time v).map .timePoint
  | .timePointSec => (parseText .time TimePointSec.parse .time v).map .timePointSec
  | .blockTimestamp => (parseText .time BlockTimestamp.parse .time v).map .blockTimestamp
  | .name => (parseName v).map .name
  | .bytes => do
    let bs ← parseHex v
    checkLength bs
    return .bytes bs
  | .string => do
    let s ← parseString .string v
    checkLength (Utf8.encode s)
    return .string s
  | .checksum size => (parseText .hex (Checksum.parse size.bytes) .checksum v).map (.checksum size)
  | .publicKey => (parseText .publicKey PublicKey.parse .key v).map .publicKey
  | .privateKey => (parseText .privateKey PrivateKey.parse .key v).map .privateKey
  | .signature => (parseText .signature Signature.parse .key v).map .signature
  | .symbol => (parseText .symbol Symbol.parse .token v).map .symbol
  | .symbolCode => (parseText .symbolCode SymbolCode.parse .token v).map .symbolCode
  | .asset => (parseAsset v).map .asset
  | .extendedAsset => (parseExtendedAsset v).map .extendedAsset

def showFloat (x : Binary64) : Json :=
  if x.isNaN then .str "NaN"
  else if x.isFinite then .num (.float x)
  else .str (if x.isNegative then "-Infinity" else "Infinity")

/-- The double-precision number nearest to the shortest plain text of single-precision bits. -/
def widen (bits : UInt32) : Binary64 :=
  let f := BinaryFormat.single
  let negative : Bool := f.signBit ≤ bits.toNat
  let magnitude := bits.toNat % f.signBit
  if f.infinity < magnitude then .nan negative
  else if magnitude = f.infinity then .infinity negative
  else .ofRatio negative (f.shortest Binary64.plainLayout.tie magnitude).ratio

def showAsset (a : Asset) : Json := .str (a.text?.getD "")

def toJson : Leaf → Json
  | .bool b => .bool b
  | .int w i => if w.isNarrow then .ofInt i else .str (Decimal.showInt i)
  | .uint w n => if w.isNarrow then .ofNat n else .str (Decimal.showNat n)
  | .varint i => .ofInt i
  | .varuint n => .ofNat n
  | .float32 bits => showFloat (widen bits)
  | .float64 x => showFloat x
  | .float128 b => .str (Hex.encode b.bytes)
  | .timePoint t => .str (t.text?.getD "")
  | .timePointSec t => .str t.text
  | .blockTimestamp t => .str t.text
  | .name n => .str n.text
  | .bytes bs => .str (Hex.encode bs)
  | .string s => .str s
  | .checksum _ c => .str (Checksum.text c)
  | .publicKey k => .str k.text
  | .privateKey k => .str k.text
  | .signature s => .str s.text
  | .symbol s => .str s.text
  | .symbolCode c => .str c.text
  | .asset a => showAsset a
  | .extendedAsset a => .obj [("quantity", showAsset a.quantity), ("contract", .str a.contract.text)]

def signedBytes (width : Nat) (i : Int) : Bytes :=
  Bytes.ofNatLE width (i % 256 ^ width).toNat

def toBytes : Leaf → Bytes
  | .bool b => [if b then 1 else 0]
  | .int w i => signedBytes w.bytes i
  | .uint w n => Bytes.ofNatLE w.bytes n
  | .varint i => Wire.varint i
  | .varuint n => Wire.varuint n
  | .float32 bits => Bytes.ofNatLE 4 bits.toNat
  | .float64 x => Bytes.ofNatLE 8 x.bits.toNat
  | .float128 b => b.bytes
  | .timePoint t => signedBytes 8 t.micros.toInt
  | .timePointSec t => Bytes.ofNatLE 4 t.secs.toNat
  | .blockTimestamp t => Bytes.ofNatLE 4 t.slot.toNat
  | .name n => n.toBytes
  | .bytes bs => Wire.lengthPrefixed bs
  | .string s => Wire.lengthPrefixed (Utf8.encode s)
  | .checksum _ c => c.bytes
  | .publicKey k => k.type.tag :: k.data.bytes
  | .privateKey k => k.type.tag :: k.data.bytes
  | .signature s => s.type.tag :: s.data.bytes
  | .symbol s => Bytes.ofNatLE 8 s.value.toNat
  | .symbolCode c => Bytes.ofNatLE 8 c.value.toNat
  | .asset a => a.toBytes
  | .extendedAsset a => a.toBytes

def signedOfNat (width n : Nat) : Int :=
  if 2 * n < 256 ^ width then n else (n : Int) - 256 ^ width

def readSigned (width : Nat) : Wire.Read Int := do
  return signedOfNat width (← Wire.Read.nat width)

def readWord64 : Wire.Read UInt64 := do return UInt64.ofNat (← Wire.Read.nat 8)

def readWord32 : Wire.Read UInt32 := do return UInt32.ofNat (← Wire.Read.nat 4)

/-- Reads a byte as a truth value; unless `strict`, each byte but 0 is true. -/
def readBool (strict : Bool) : Wire.Read Bool := do
  let offset ← Wire.Read.position
  let b ← Wire.Read.byte
  if b = 0 then return false
  else if b = 1 ∨ !strict then return true
  else throw ⟨offset, .boolByte b⟩

def readTimePoint : Wire.Read TimePoint := do
  let offset ← Wire.Read.position
  let t := TimePoint.ofMicros (← readSigned 8)
  if t.isRepresentable then return t else throw ⟨offset, .timePoint t.micros.toInt⟩

def readString : Wire.Read String := do
  let offset ← Wire.Read.position
  let bs ← Wire.Read.lengthPrefixed
  match Utf8.decode? bs with
  | some s => return s
  | none => throw ⟨offset, .utf8⟩

def readAsset : Wire.Read Asset := do
  let offset ← Wire.Read.position
  let amount ← readSigned 8
  let symbol : Symbol := ⟨← readWord64⟩
  if symbol.precision ≤ Token.maxPrecision then return ⟨Int64.ofInt amount, symbol⟩
  else throw ⟨offset, .precision symbol.precision⟩

def readName : Wire.Read Name := do return ⟨← readWord64⟩

def readKeyType : Wire.Read KeyType := do
  let offset ← Wire.Read.position
  match KeyType.ofTag (← Wire.Read.byte) with
  | .ok type => return type
  | .error e => throw ⟨offset, .key e⟩

def read (strict : Bool) : Builtin → Wire.Read Leaf
  | .bool => return .bool (← readBool strict)
  | .int w => return .int w (← readSigned w.bytes)
  | .uint w => return .uint w (← Wire.Read.nat w.bytes)
  | .varint => return .varint (← Wire.Read.varint)
  | .varuint => return .varuint (← Wire.Read.varuint)
  | .float32 => return .float32 (← readWord32)
  | .float64 => return .float64 ⟨← readWord64⟩
  | .float128 => return .float128 (← Wire.Read.blob 16)
  | .timePoint => return .timePoint (← readTimePoint)
  | .timePointSec => return .timePointSec ⟨← readWord32⟩
  | .blockTimestamp => return .blockTimestamp ⟨← readWord32⟩
  | .name => return .name (← readName)
  | .bytes => return .bytes (← Wire.Read.lengthPrefixed)
  | .string => return .string (← readString)
  | .checksum size => return .checksum size (← Wire.Read.blob size.bytes)
  | .publicKey => return .publicKey ⟨← readKeyType, ← Wire.Read.blob 33⟩
  | .privateKey => return .privateKey ⟨← readKeyType, ← Wire.Read.blob 32⟩
  | .signature => return .signature ⟨← readKeyType, ← Wire.Read.blob 65⟩
  | .symbol => return .symbol ⟨← readWord64⟩
  | .symbolCode => return .symbolCode ⟨← readWord64⟩
  | .asset => return .asset (← readAsset)
  | .extendedAsset => return .extendedAsset ⟨← readAsset, ← readName⟩

end Leaf

namespace Builtin

def encode (type : Builtin) (v : Json) : Except Leaf.Fault Bytes := (Leaf.parse type v).map Leaf.toBytes

def decode (type : Builtin) (strict : Bool) : Wire.Read Json := do
  return (← Leaf.read strict type).toJson

end Builtin
end ChainKit.Abi
