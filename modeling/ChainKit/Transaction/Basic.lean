import ChainKit.Hash.Sha256
import ChainKit.Node.Message
import ChainKit.Transaction.Action

namespace ChainKit

open Json (Source Record)

/-- How a transaction that leaves them open gets its reference block and expiration: so many blocks
behind the head, and so many seconds after it. -/
structure ReferencePolicy where
  blocksBehind : UInt32 := 3
  expireSeconds : UInt32 := 300
deriving DecidableEq, Repr, Inhabited

namespace ReferencePolicy

def ofSource? (s : Source) : Option ReferencePolicy := do
  let r ← Record.ofSource? ["blocks_behind", "expire_seconds"] s
  let default : ReferencePolicy := {}
  return ⟨← r.optional? "blocks_behind" default.blocksBehind word32?,
    ← r.optional? "expire_seconds" default.expireSeconds word32?⟩

def toJson (p : ReferencePolicy) : Json :=
  .obj [("blocks_behind", .ofNat p.blocksBehind.toNat),
    ("expire_seconds", .ofNat p.expireSeconds.toNat)]

end ReferencePolicy

structure TransactionExtension where
  type : UInt16
  data : Bytes
deriving DecidableEq, Repr

namespace TransactionExtension

def ofSource? (s : Source) : Option TransactionExtension := do
  let r ← Record.ofSource? ["type", "data"] s
  return ⟨UInt16.ofNat (← r.required? "type" (Source.nat? (2 ^ 16))),
    ← r.required? "data" (Source.text? Hex.decode)⟩

def toJson (e : TransactionExtension) : Json :=
  .obj [("type", .ofNat e.type.toNat), ("data", .str (Hex.encode e.data))]

end TransactionExtension

structure SignedTransaction where
  packed : Bytes
  signatures : List Signature

namespace SignedTransaction

def id (s : SignedTransaction) : Checksum256 := Hash.sha256 s.packed

/-- The request that sends the transaction, uncompressed and without context-free data. -/
def pushRequest (s : SignedTransaction) : PushRequest := ⟨s.signatures, 0, "", Hex.encode s.packed⟩

end SignedTransaction

/-- A transaction under construction. The reference block counts as open while its mark, the low
bits of its id, is zero; the expiration while it is zero. -/
structure Transaction where
  chainId : Option Checksum256 := none
  policy : ReferencePolicy := {}
  expiration : TimePointSec := ⟨0⟩
  refBlockNum : UInt16 := 0
  refBlockMark : UInt32 := 0
  maxNetUsageWords : UInt32 := 0
  maxCpuUsageMs : UInt8 := 0
  delaySec : UInt32 := 0
  contextFreeActions : List Action := []
  actions : List Action := []
  extensions : List TransactionExtension := []
  signed : Option SignedTransaction := none
  reportedId : Option Checksum256 := none
deriving Inhabited

namespace Transaction

variable (t : Transaction)

def allActions : List Action := t.contextFreeActions ++ t.actions

def withAllActions (as : List Action) : Transaction :=
  let n := t.contextFreeActions.length
  { t with contextFreeActions := as.take n, actions := as.drop n }

def toJson : Except ClientError Json := do
  let contextFree ← t.contextFreeActions.mapM Action.toJson
  let actions ← t.actions.mapM Action.toJson
  return .obj [("expiration", .str t.expiration.text), ("ref_block_num", .ofNat t.refBlockNum.toNat),
    ("ref_block_prefix", .ofNat t.refBlockMark.toNat),
    ("max_net_usage_words", .ofNat t.maxNetUsageWords.toNat),
    ("max_cpu_usage_ms", .ofNat t.maxCpuUsageMs.toNat), ("delay_sec", .ofNat t.delaySec.toNat),
    ("context_free_actions", .arr contextFree), ("actions", .arr actions),
    ("transaction_extensions", .arr (t.extensions.map TransactionExtension.toJson))]

def layout : List String :=
  ["expiration", "ref_block_num", "ref_block_prefix", "max_net_usage_words", "max_cpu_usage_ms",
    "delay_sec", "context_free_actions", "actions", "transaction_extensions"]

def ofSource? (s : Source) : Option (Transaction × List Source × List Source) := do
  let r ← Record.ofSource? layout s
  let t : Transaction := {
    expiration := ← r.required? "expiration" (Source.text? TimePointSec.parse)
    refBlockNum := UInt16.ofNat (← r.required? "ref_block_num" (Source.nat? (2 ^ 16)))
    refBlockMark := ← r.required? "ref_block_prefix" word32?
    maxNetUsageWords := ← r.required? "max_net_usage_words" word32?
    maxCpuUsageMs := UInt8.ofNat (← r.required? "max_cpu_usage_ms" (Source.nat? (2 ^ 8)))
    delaySec := ← r.required? "delay_sec" word32?
    extensions :=
      ← r.required? "transaction_extensions" (Source.list? TransactionExtension.ofSource?) }
  let contextFree ← r.required? "context_free_actions" (Source.list? some)
  return (t, contextFree, ← r.required? "actions" (Source.list? some))

def ofJson (v : Json) : Except ClientError Transaction :=
  match ofSource? (.ofJson v) with
  | none => .error .malformedJson
  | some (t, contextFree, actions) => do
    return { t with
      contextFreeActions := ← contextFree.mapM Action.ofLayout
      actions := ← actions.mapM Action.ofLayout }

/-- Packs the transaction. The reference block must be set, then the expiration, and all actions
must be packed. -/
def serialize : Action.Op Bytes := do
  if t.refBlockMark = 0 then throw (.missingField .refBlock)
  if t.expiration.secs = 0 then throw (.missingField .expiration)
  match t.toJson with
  | .error e => throw e
  | .ok v => Action.inContext (Abi.Context.packTransaction v)

def deserialize (bs : Bytes) : Action.Op Transaction := do
  match ofJson (← Action.inContext (Abi.Context.unpackTransaction bs)) with
  | .ok t => return t
  | .error e => throw e

end Transaction
end ChainKit
