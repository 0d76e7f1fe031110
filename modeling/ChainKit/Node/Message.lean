import ChainKit.Abi.Document.Json
import ChainKit.Bytes.Base64
import ChainKit.Checksum
import ChainKit.Key.Text
import ChainKit.Time.Basic

namespace ChainKit

open Json (Source Record)

def checksum? (n : Nat) : Source → Option (Checksum n) := Source.text? (Checksum.parse n)

def word32? (s : Source) : Option UInt32 := (s.nat? (2 ^ 32)).map UInt32.ofNat

def checksumJson {n : Nat} (c : Checksum n) : Json := .str (Checksum.text c)

structure NodeInfo where
  serverVersion : String
  chainId : Checksum256
  headBlockNum : UInt32
  lastIrreversibleBlockNum : UInt32
  headBlockId : Checksum256
  headBlockTime : TimePoint
  headBlockProducer : Name
deriving DecidableEq, Inhabited

namespace NodeInfo

def members : List String :=
  ["server_version", "chain_id", "head_block_num", "last_irreversible_block_num", "head_block_id",
    "head_block_time", "head_block_producer"]

def ofSource? (s : Source) : Option NodeInfo := do
  let r ← Record.ofSource? members s
  return {
    serverVersion := ← r.optional? "server_version" "" Source.string?
    chainId := ← r.required? "chain_id" (checksum? 32)
    headBlockNum := ← r.required? "head_block_num" word32?
    lastIrreversibleBlockNum := ← r.optional? "last_irreversible_block_num" 0 word32?
    headBlockId := ← r.optional? "head_block_id" default (checksum? 32)
    headBlockTime := ← r.required? "head_block_time" (Source.text? TimePoint.parse)
    headBlockProducer := ← r.optional? "head_block_producer" Name.empty Abi.name? }

def toJson (i : NodeInfo) : Json :=
  .obj [("server_version", .str i.serverVersion), ("chain_id", checksumJson i.chainId),
    ("head_block_num", .ofNat i.headBlockNum.toNat),
    ("last_irreversible_block_num", .ofNat i.lastIrreversibleBlockNum.toNat),
    ("head_block_id", checksumJson i.headBlockId),
    ("head_block_time", .str (i.headBlockTime.text?.getD "")),
    ("head_block_producer", .str i.headBlockProducer.text)]

end NodeInfo

structure BlockInfo where
  number : UInt32
  mark : UInt32
  id : Checksum256
  producer : Name
deriving DecidableEq, Inhabited

namespace BlockInfo

def ofSource? (s : Source) : Option BlockInfo := do
  let r ← Record.ofSource? ["block_num", "ref_block_prefix", "id", "producer"] s
  return {
    number := ← r.required? "block_num" word32?
    mark := ← r.required? "ref_block_prefix" word32?
    id := ← r.optional? "id" default (checksum? 32)
    producer := ← r.optional? "producer" Name.empty Abi.name? }

def toJson (b : BlockInfo) : Json :=
  .obj [("block_num", .ofNat b.number.toNat), ("ref_block_prefix", .ofNat b.mark.toNat),
    ("id", checksumJson b.id), ("producer", .str b.producer.text)]

end BlockInfo

/-- The packed schema of an account with the digest that the node declares. -/
structure RawAbi where
  account : Name
  codeHash : Checksum256
  abiHash : Checksum256
  abi : Bytes
deriving DecidableEq, Inhabited

namespace RawAbi

def ofSource? (s : Source) : Option RawAbi := do
  let r ← Record.ofSource? ["account_name", "code_hash", "abi_hash", "abi"] s
  return {
    account := ← r.required? "account_name" Abi.name?
    codeHash := ← r.optional? "code_hash" default (checksum? 32)
    abiHash := ← r.required? "abi_hash" (checksum? 32)
    abi := ← r.required? "abi" fun s => s.string?.bind Base64.decode? }

def toJson (a : RawAbi) : Json :=
  .obj [("account_name", .str a.account.text), ("code_hash", checksumJson a.codeHash),
    ("abi_hash", checksumJson a.abiHash), ("abi", .str (Base64.encode a.abi))]

end RawAbi

structure PushRequest where
  signatures : List Signature
  compression : UInt8
  packedContextFreeData : String
  packedTransaction : String
deriving DecidableEq, Inhabited

namespace PushRequest

def ofSource? (s : Source) : Option PushRequest := do
  let r ← Record.ofSource?
    ["signatures", "compression", "packed_context_free_data", "packed_trx"] s
  return {
    signatures := ← r.required? "signatures" (Source.list? (Source.text? Signature.parse))
    compression := UInt8.ofNat (← r.required? "compression" (Source.nat? (2 ^ 8)))
    packedContextFreeData := ← r.required? "packed_context_free_data" Source.string?
    packedTransaction := ← r.required? "packed_trx" Source.string? }

def toJson (p : PushRequest) : Json :=
  .obj [("signatures", .arr (p.signatures.map fun s => .str s.text)),
    ("compression", .ofNat p.compression.toNat),
    ("packed_context_free_data", .str p.packedContextFreeData),
    ("packed_trx", .str p.packedTransaction)]

end PushRequest

structure PushResponse where
  transactionId : Checksum256
  processed : Json
deriving Inhabited

namespace PushResponse

/-- Reads an answer; its trace nests one level less than a whole text may. -/
def ofSource? (s : Source) : Option PushResponse := do
  let r ← Record.ofSource? ["transaction_id", "processed"] s
  return {
    transactionId := ← r.required? "transaction_id" (checksum? 32)
    processed := ← r.optional? "processed" .null (Source.toJson? (Json.maxNesting - 1)) }

def toJson (p : PushResponse) : Json :=
  .obj [("transaction_id", checksumJson p.transactionId), ("processed", p.processed)]

end PushResponse
end ChainKit
