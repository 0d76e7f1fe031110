namespace ChainKit.Abi

inductive Width where
  | w8
  | w16
  | w32
  | w64
  | w128
deriving DecidableEq, Repr

namespace Width

def bytes : Width → Nat
  | .w8 => 1
  | .w16 => 2
  | .w32 => 4
  | .w64 => 8
  | .w128 => 16

def bits (w : Width) : Nat := w.bytes * 8

/-- Whether numbers of the width are written as JSON numbers; wider ones are written as text. -/
def isNarrow (w : Width) : Bool := w.bytes ≤ 4

end Width

inductive DigestSize where
  | d160
  | d256
  | d512
deriving DecidableEq, Repr

namespace DigestSize

def bytes : DigestSize → Nat
  | .d160 => 20
  | .d256 => 32
  | .d512 => 64

end DigestSize

inductive Builtin where
  | bool
  | int (width : Width)
  | uint (width : Width)
  | varint
  | varuint
  | float32
  | float64
  | float128
  | timePoint
  | timePointSec
  | blockTimestamp
  | name
  | bytes
  | string
  | checksum (size : DigestSize)
  | publicKey
  | privateKey
  | signature
  | symbol
  | symbolCode
  | asset
  | extendedAsset
deriving DecidableEq, Repr

namespace Builtin

def all : List Builtin :=
  [.bool, .int .w8, .uint .w8, .int .w16, .uint .w16, .int .w32, .uint .w32, .int .w64, .uint .w64,
    .int .w128, .uint .w128, .varint, .varuint, .float32, .float64, .float128, .timePoint,
    .timePointSec, .blockTimestamp, .name, .bytes, .string, .checksum .d160, .checksum .d256,
    .checksum .d512, .publicKey, .privateKey, .signature, .symbol, .symbolCode, .asset,
    .extendedAsset]

def typeName : Builtin → String
  | .bool => "bool"
  | .int w => "int" ++ toString w.bits
  | .uint w => "uint" ++ toString w.bits
  | .varint => "varint32"
  | .varuint => "varuint32"
  | .float32 => "float32"
  | .float64 => "float64"
  | .float128 => "float128"
  | .timePoint => "time_point"
  | .timePointSec => "time_point_sec"
  | .blockTimestamp => "block_timestamp_type"
  | .name => "name"
  | .bytes => "bytes"
  | .string => "string"
  | .checksum size => "checksum" ++ toString (size.bytes * 8)
  | .publicKey => "public_key"
  | .privateKey => "private_key"
  | .signature => "signature"
  | .symbol => "symbol"
  | .symbolCode => "symbol_code"
  | .asset => "asset"
  | .extendedAsset => "extended_asset"

def ofName? (name : String) : Option Builtin := all.find? fun b => b.typeName == name

def index (b : Builtin) : Nat := all.idxOf b

end Builtin
end ChainKit.Abi
