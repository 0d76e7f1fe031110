import ChainKit.AbiStore
import ChainKit.Node.Basic
import ChainKit.Transaction.Basic
import ChainKit.Transaction.Signer

namespace ChainKit

structure Session where
  context : Abi.Context
  node : Node
  store : AbiStore
  transaction : Transaction
deriving Inhabited

namespace Session

abbrev Op := EStateM ClientError Session

variable {α : Type}

def inContext (op : Action.Op α) : Op α := fun s =>
  match op s.context with
  | .ok a context => .ok a { s with context }
  | .error e context => .error e { s with context }

def atNode (op : Node.Op α) : Op α := fun s =>
  match op s.node with
  | .ok a node => .ok a { s with node }
  | .error e node => .error e { s with node }

def modifyTransaction (f : Transaction → Transaction) : Op Unit :=
  modify fun s => { s with transaction := f s.transaction }

def updateStore (op : AbiStore → Action.Op AbiStore) : Op Unit := do
  let store ← inContext (op (← get).store)
  modify fun s => { s with store }

def addAbi (account : Name) (abi : Bytes) : Op Unit := updateStore fun store => store.insert account abi

def addAbiHex (account : Name) (hex : String) : Op Unit :=
  updateStore fun store => store.insertHex account hex

def addAbiJson (account : Name) (json : String) : Op Unit :=
  updateStore fun store => store.insertJson account json

/-- Runs a step on the actions in order, up to the first failure. The actions behind it are left as
they are. -/
def updateEach (step : Action → Action.Op Action) :
    List Action → Abi.Context → List Action × EStateM.Result ClientError Abi.Context Unit
  | [], c => ([], .ok () c)
  | a :: rest, c =>
    match step a c with
    | .error e c => (a :: rest, .error e c)
    | .ok a c =>
      let (rest, outcome) := updateEach step rest c
      (a :: rest, outcome)

def updateActions (step : Action → Action.Op Action) : Op Unit := fun s =>
  let (actions, outcome) := updateEach step s.transaction.allActions s.context
  let transaction := s.transaction.withAllActions actions
  match outcome with
  | .ok () context => .ok () { s with context, transaction }
  | .error e context => .error e { s with context, transaction }

def missingAbis (s : Session) : List Name :=
  s.store.missing ((s.transaction.allActions.filter fun a => !a.isPacked).map Action.account)

def packActions : Op Unit := do
  let s ← get
  if s.missingAbis ≠ [] then throw (.missingAbis s.missingAbis)
  updateActions fun a => do
    if a.isPacked then return a else a.pack (← s.store.document a.account)

def unpackActions : Op Unit := do
  let s ← get
  updateActions fun a => do
    if a.isPacked && s.store.contains a.account then
      a.unpack (← s.store.document a.account)
    else return a

/-- The expiration some seconds after the head of the chain. A head that is out of range is named in
the error. One that has no text cannot even be named: a client stops there, and here the text in the
error is empty. -/
def expirationAfter (head : TimePoint) (seconds : UInt32) : Except ClientError TimePointSec :=
  match Time.word? (head.micros.toInt / 1000000) with
  | some secs => .ok (TimePointSec.addSaturating ⟨secs⟩ seconds)
  | none => .error (.value (.time (.outOfRange (head.text?.getD ""))))

def referenceNumber (head behind : UInt32) : UInt32 :=
  UInt32.ofNat (max (head.toNat - behind.toNat) 1)

def fillChainId (info : NodeInfo) : Op Unit := do
  match (← get).transaction.chainId with
  | none => modifyTransaction fun t => { t with chainId := some info.chainId }
  | some provided =>
    if provided ≠ info.chainId then throw (.chainIdMismatch provided info.chainId)

def fillExpiration (info : NodeInfo) : Op Unit := do
  let t := (← get).transaction
  if t.expiration.secs = 0 then
    match expirationAfter info.headBlockTime t.policy.expireSeconds with
    | .ok expiration => modifyTransaction fun t => { t with expiration }
    | .error e => throw e

def fillReference (info : NodeInfo) : Op Unit := do
  let t := (← get).transaction
  if t.refBlockMark = 0 then
    let block ← atNode (Node.getBlock (referenceNumber info.headBlockNum t.policy.blocksBehind))
    modifyTransaction fun t =>
      { t with refBlockNum := block.number.toUInt16, refBlockMark := block.mark }

/-- Sets what is open of chain id, expiration and reference block; if nothing is, the node is not
asked. -/
def fillReferences : Op Unit := do
  let t := (← get).transaction
  if t.chainId.isSome ∧ t.expiration.secs ≠ 0 ∧ t.refBlockMark ≠ 0 then return
  let info ← atNode Node.getInfo
  fillChainId info
  fillExpiration info
  fillReference info

/-- Fetches the schema of an account. Its digest must be the declared one. -/
def fetchAbi (account : Name) : Op Unit := do
  let answer ← atNode (Node.getRawAbi account)
  let computed := Hash.sha256 answer.abi
  if computed ≠ answer.abiHash then throw (.abiHashMismatch account answer.abiHash computed)
  let store ← inContext ((← get).store.insert account answer.abi)
  modify fun s => { s with store }

def fetchEach : List Name → Op Unit
  | [] => return ()
  | account :: rest => do
    fetchAbi account
    fetchEach rest

def prepare : Op Unit := do
  fillReferences
  fetchEach (← get).missingAbis
  packActions

def serialize : Op Bytes := do inContext (← get).transaction.serialize

/-- Packs the transaction and has it signed with the given keys. A new signing forgets the id that
was reported for an older one. -/
def signWithKeys (signer : Signer) (keys : List PublicKey) : Op SignedTransaction := do
  match (← get).transaction.chainId with
  | none => throw (.missingField .chainId)
  | some chainId =>
    let packed ← serialize
    match signer.sign ⟨chainId, packed, keys⟩ with
    | .error e => throw e
    | .ok [] => throw (.signer .noSignatures)
    | .ok signatures =>
      let signed : SignedTransaction := ⟨packed, signatures⟩
      modifyTransaction fun t => { t with signed := some signed, reportedId := none }
      return signed

def sign (signer : Signer) : Op SignedTransaction :=
  match signer.keys with
  | .ok keys => signWithKeys signer keys
  | .error e => throw e

def broadcast : Op PushResponse := do
  match (← get).transaction.signed with
  | none => throw .notSigned
  | some signed =>
    if signed.signatures = [] then throw .notSigned
    let answer ← atNode (Node.push signed.pushRequest)
    modifyTransaction fun t => { t with reportedId := some answer.transactionId }
    return answer

def signAndBroadcast (signer : Signer) : Op PushResponse := do
  prepare
  let _ ← sign signer
  broadcast

end Session
end ChainKit
