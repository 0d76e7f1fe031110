import ChainKit.ClientError
import ChainKit.Hash.Sha256
import ChainKit.Node.Message
import ChainKit.SortedMap

namespace ChainKit

instance : Ranked UInt32 where
  rank := UInt32.toNat
  rank_inj := UInt32.toNat.inj

inductive NodeCall where
  | info
  | block (number : UInt32)
  | rawAbi (account : Name)
  | push
deriving DecidableEq, Repr

def NodeCall.text : NodeCall → String
  | .info => "get_info"
  | .block n => "get_block:" ++ toString n.toNat
  | .rawAbi a => "get_raw_abi:" ++ a.text
  | .push => "push_transaction"

/-- The chain that a node knows, with the calls made and the transactions pushed so far, the last
ones first. -/
structure Node where
  info : NodeInfo
  blocks : SortedMap UInt32 BlockInfo
  abis : SortedMap Name RawAbi
  pushedBackwards : List PushRequest
  callsBackwards : List NodeCall
deriving Inhabited

namespace Node

abbrev Op := EStateM ClientError Node

def new (chainId : Checksum256) (headBlockNum : UInt32) (headBlockTime : TimePoint) : Node where
  info :=
    ⟨"mock", chainId, headBlockNum, if headBlockNum = 0 then 0 else headBlockNum - 1, default,
      headBlockTime, Name.empty⟩
  blocks := .empty
  abis := .empty
  pushedBackwards := []
  callsBackwards := []

variable (n : Node)

def calls : List NodeCall := n.callsBackwards.reverse

def pushed : List PushRequest := n.pushedBackwards.reverse

def withInfo (info : NodeInfo) : Node := { n with info }

def withBlock (number mark : UInt32) : Node :=
  { n with blocks := n.blocks.insert number ⟨number, mark, default, Name.empty⟩ }

def withAbi (account : Name) (abi : Bytes) (declared : Checksum256) : Node :=
  { n with abis := n.abis.insert account ⟨account, default, declared, abi⟩ }

def record (call : NodeCall) : Op Unit :=
  modify fun n => { n with callsBackwards := call :: n.callsBackwards }

def getInfo : Op NodeInfo := do
  record .info
  return (← get).info

def getBlock (number : UInt32) : Op BlockInfo := do
  record (.block number)
  match (← get).blocks.find? number with
  | some b => return b
  | none => throw (.node (.unknownBlock number))

def getRawAbi (account : Name) : Op RawAbi := do
  record (.rawAbi account)
  match (← get).abis.find? account with
  | some a => return a
  | none => throw (.node (.unknownAccount account))

/-- Accepts every transaction whose bytes can be read; its id is their digest. -/
def push (request : PushRequest) : Op PushResponse := do
  record .push
  match Hex.decode request.packedTransaction with
  | .error e => throw (.hex e)
  | .ok packed =>
    modify fun n => { n with pushedBackwards := request :: n.pushedBackwards }
    return ⟨Hash.sha256 packed, .obj [("receipt", .obj [("status", .str "executed")])]⟩

end Node
end ChainKit
