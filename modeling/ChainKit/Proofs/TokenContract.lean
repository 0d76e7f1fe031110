import ChainKit.Proofs.Abi.Row
import ChainKit.Proofs.Session.Payloads
import ChainKit.TokenContract

namespace ChainKit.TokenContract
set_option autoImplicit true
open Abi (Leaf Row TypeTable)

def texts : List String :=
  ["eosio.token", "active", "transfer", "create", "issue", "retire", "open", "close", "accounts",
    "stat"]

theorem parse_texts : ∀ s ∈ texts, Name.parse s = .ok (named s) := by decide +kernel

def structs : List Abi.StructType :=
  [⟨"transfer", [⟨"from", .builtin .name⟩, ⟨"to", .builtin .name⟩, ⟨"quantity", .builtin .asset⟩,
      ⟨"memo", .builtin .string⟩]⟩,
    ⟨"create", [⟨"issuer", .builtin .name⟩, ⟨"maximum_supply", .builtin .asset⟩]⟩,
    ⟨"issue", [⟨"to", .builtin .name⟩, ⟨"quantity", .builtin .asset⟩, ⟨"memo", .builtin .string⟩]⟩,
    ⟨"retire", [⟨"quantity", .builtin .asset⟩, ⟨"memo", .builtin .string⟩]⟩,
    ⟨"open", [⟨"owner", .builtin .name⟩, ⟨"symbol", .builtin .symbol⟩,
      ⟨"ram_payer", .builtin .name⟩]⟩,
    ⟨"close", [⟨"owner", .builtin .name⟩, ⟨"symbol", .builtin .symbol⟩]⟩,
    ⟨"account", [⟨"balance", .builtin .asset⟩]⟩,
    ⟨"currency_stats", [⟨"supply", .builtin .asset⟩, ⟨"max_supply", .builtin .asset⟩,
      ⟨"issuer", .builtin .name⟩]⟩]

def contract : Abi.Contract := Abi.Standard.contract document

theorem ofDocument_document : Abi.Contract.ofDocument document = .ok contract := by
  have hsome : (Abi.Contract.ofDocument document).toOption.isSome := by decide +kernel
  obtain ⟨c, hc⟩ := Option.isSome_iff_exists.mp hsome
  rw [contract, Abi.Standard.contract, hc]
  exact Result.toOption_eq_some.mp hc

def calls : List String := ["transfer", "issue", "open"]

theorem types_contract : contract.types.structs = structs ∧ contract.types.variants = [] ∧
    ∀ name ∈ calls, contract.types.view name = .ok (.struct name) ∧
      contract.actionType? (named name) = some name := by
  decide +kernel

theorem view_call (h : name ∈ calls) : contract.types.view name = .ok (.struct name) :=
  (types_contract.2.2 name h).1

theorem hasPlainFields_calls : ∀ name ∈ calls, contract.types.HasPlainFields name := by
  simp only [calls, List.forall_mem_cons]
  refine ⟨?_, ?_, ?_, nofun⟩
  all_goals
    apply TypeTable.HasPlainFields.of_structs types_contract.1 types_contract.2.1
    all_goals decide

theorem check_document : Abi.Context.check document = .ok contract := by
  rw [Abi.Context.check, ofDocument_document]
  rfl

/-- Whether an action is packed by the schema to given bytes, from which the action comes back. -/
def IsPackedTo (context : Abi.Context) (a : Action) (bs : Bytes) : Prop :=
  ∃ packed unpacked, a.pack document context = .ok { a with data := .packed bs } packed ∧
    ({ a with data := .packed bs } : Action).unpack document packed = .ok a unpacked

theorem payloadType_call (hname : name ∈ calls) (ha : a.name = named name) :
    Action.payloadType contract a = name := by
  rw [Action.payloadType, ha, (types_contract.2.2 name hname).2, Option.getD_some]

def packedCall (name : String) (authorizer : Name) (bs : Bytes) : Action :=
  ⟨account, named name, [⟨authorizer, named "active"⟩], .packed bs⟩

section Packing

variable {config : Abi.Config} {row : Row} (hname : name ∈ calls) (hrow : row.IsTextual)
  (hfields : contract.types.fieldsOf name = row.fields) (hdepth : 0 < config.maxDepth)
include hname hrow hfields hdepth

theorem packedBy_call (authorizer : Name) :
    Draft.packedBy config document (call name authorizer (.obj row.members)) =
      .ok (packedCall name authorizer row.bytes) := by
  refine (Draft.packedBy_eq_ok rfl hrow.parse?_render).mpr
    ⟨contract, row.bytes, check_document, ?_, rfl⟩
  rw [payloadType_call hname rfl]
  exact hrow.encode (view_call hname) hfields hdepth

theorem unpackedBy_call (authorizer : Name) :
    Draft.unpackedBy config document (packedCall name authorizer row.bytes) =
      .ok (call name authorizer (.obj row.members)) := by
  have hdecode : contract.decode config name row.bytes = .ok (.obj row.members) :=
    hrow.decode (view_call hname) hfields (hasPlainFields_calls name hname) hdepth
  rw [← payloadType_call (a := packedCall name authorizer row.bytes) hname rfl] at hdecode
  refine (Draft.unpackedBy_eq_ok rfl ?_).mpr ⟨contract, _, check_document, hdecode, rfl⟩
  intro l v hl hv
  obtain rfl := Except.ok.inj (check_document.symm.trans hl)
  obtain rfl := Except.ok.inj (hdecode.symm.trans hv)
  exact hrow.parse?_render

theorem isPackedTo_call (hc : Session.IsUnder config c) (authorizer : Name) :
    IsPackedTo c (call name authorizer (.obj row.members)) row.bytes := by
  obtain ⟨packed, hunder, hpack⟩ :=
    Session.answers_pack config document (call name authorizer (.obj row.members)) c hc
  rw [packedBy_call hname hrow hfields hdepth] at hpack
  obtain ⟨unpacked, -, hunpack⟩ :=
    Session.answers_unpack config document (packedCall name authorizer row.bytes) packed hunder
  rw [unpackedBy_call hname hrow hfields hdepth] at hunpack
  exact ⟨packed, unpacked, hpack, hunpack⟩

end Packing

theorem fieldsOf_contract (h : (structs.find? fun s => s.name == name) = some ⟨name, fields⟩) :
    contract.types.fieldsOf name = fields := by
  rw [TypeTable.fieldsOf, TypeTable.struct?_eq types_contract.1 h]
  rfl

def transferRow (source target : Name) (quantity : Asset) (memo : String) : Row :=
  [("from", .name source), ("to", .name target), ("quantity", .asset quantity),
    ("memo", .string memo)]

def issueRow (target : Name) (quantity : Asset) (memo : String) : Row :=
  [("to", .name target), ("quantity", .asset quantity), ("memo", .string memo)]

def openRow (owner : Name) (symbol : Symbol) (payer : Name) : Row :=
  [("owner", .name owner), ("symbol", .symbol symbol), ("ram_payer", .name payer)]

variable {quantity : Asset} {memo : String}

theorem isTextual_transferRow (hq : quantity.symbol.IsProper) (hm : memo.utf8ByteSize < 2 ^ 32)
    (source target : Name) : (transferRow source target quantity memo).IsTextual := by
  refine ⟨by simp [transferRow], ?_⟩
  simp only [transferRow, List.forall_mem_cons]
  exact ⟨Leaf.isTextual_name source, Leaf.isTextual_name target, Leaf.isTextual_asset hq,
    Leaf.isTextual_string hm, nofun⟩

theorem isTextual_issueRow (hq : quantity.symbol.IsProper) (hm : memo.utf8ByteSize < 2 ^ 32)
    (target : Name) : (issueRow target quantity memo).IsTextual := by
  refine ⟨by simp [issueRow], ?_⟩
  simp only [issueRow, List.forall_mem_cons]
  exact ⟨Leaf.isTextual_name target, Leaf.isTextual_asset hq, Leaf.isTextual_string hm, nofun⟩

theorem isTextual_openRow (hs : symbol.IsProper) (owner payer : Name) :
    (openRow owner symbol payer).IsTextual := by
  refine ⟨by simp [openRow], ?_⟩
  simp only [openRow, List.forall_mem_cons]
  exact ⟨Leaf.isTextual_name owner, Leaf.isTextual_symbol hs, Leaf.isTextual_name payer, nofun⟩

theorem bytes_transferRow (source target : Name) (quantity : Asset) (memo : String) :
    (transferRow source target quantity memo).bytes =
      Bytes.ofNatLE 8 source.value.toNat ++ Bytes.ofNatLE 8 target.value.toNat ++
        Bytes.ofNatLE 8 quantity.amount.toUInt64.toNat ++
        Bytes.ofNatLE 8 quantity.symbol.value.toNat ++
        Wire.varuint memo.utf8ByteSize ++ Utf8.encode memo := by
  simp only [transferRow, Row.bytes, List.flatMap_cons, List.flatMap_nil, Leaf.toBytes,
    Name.toBytes, Asset.toBytes, Wire.lengthPrefixed, Utf8.length_encode, List.append_assoc,
    List.append_nil]

theorem bytes_issueRow (target : Name) (quantity : Asset) (memo : String) :
    (issueRow target quantity memo).bytes =
      Bytes.ofNatLE 8 target.value.toNat ++ Bytes.ofNatLE 8 quantity.amount.toUInt64.toNat ++
        Bytes.ofNatLE 8 quantity.symbol.value.toNat ++
        Wire.varuint memo.utf8ByteSize ++ Utf8.encode memo := by
  simp only [issueRow, Row.bytes, List.flatMap_cons, List.flatMap_nil, Leaf.toBytes,
    Name.toBytes, Asset.toBytes, Wire.lengthPrefixed, Utf8.length_encode, List.append_assoc,
    List.append_nil]

theorem bytes_openRow (owner : Name) (symbol : Symbol) (payer : Name) :
    (openRow owner symbol payer).bytes =
      Bytes.ofNatLE 8 owner.value.toNat ++ Bytes.ofNatLE 8 symbol.value.toNat ++
        Bytes.ofNatLE 8 payer.value.toNat := by
  simp only [openRow, Row.bytes, List.flatMap_cons, List.flatMap_nil, Leaf.toBytes,
    Name.toBytes, List.append_assoc, List.append_nil]

/-- Each call of the token contract is packed by its schema to the fields of the payload in order,
numbers with the low byte first, and comes back from them. The texts of its names are names. -/
theorem calls_packed (os : List Abi.Context.Operation) :
    let context := (Abi.Context.run Abi.Context.step (.new {}) os).2
    (∀ s ∈ texts, Name.parse s = .ok (named s)) ∧
    (∀ source target quantity memo, quantity.symbol.IsProper → memo.utf8ByteSize < 2 ^ 32 →
      IsPackedTo context (transfer source target quantity memo)
        (Bytes.ofNatLE 8 source.value.toNat ++ Bytes.ofNatLE 8 target.value.toNat ++
          Bytes.ofNatLE 8 quantity.amount.toUInt64.toNat ++
          Bytes.ofNatLE 8 quantity.symbol.value.toNat ++
          Wire.varuint memo.utf8ByteSize ++ Utf8.encode memo)) ∧
    (∀ issuer target quantity memo, quantity.symbol.IsProper → memo.utf8ByteSize < 2 ^ 32 →
      IsPackedTo context (issue issuer target quantity memo)
        (Bytes.ofNatLE 8 target.value.toNat ++ Bytes.ofNatLE 8 quantity.amount.toUInt64.toNat ++
          Bytes.ofNatLE 8 quantity.symbol.value.toNat ++
          Wire.varuint memo.utf8ByteSize ++ Utf8.encode memo)) ∧
    ∀ owner symbol payer, symbol.IsProper →
      IsPackedTo context (openBalance owner symbol payer)
        (Bytes.ofNatLE 8 owner.value.toNat ++ Bytes.ofNatLE 8 symbol.value.toNat ++
          Bytes.ofNatLE 8 payer.value.toNat) := by
  intro context
  have hreached := Abi.Context.shows_run {} os
  have hc : Session.IsUnder {} context := ⟨hreached.config_eq, hreached.sound⟩
  refine ⟨parse_texts, ?_, ?_, ?_⟩
  · intro source target quantity memo hq hm
    have hname : "transfer" ∈ calls := by decide
    rw [← bytes_transferRow]
    exact isPackedTo_call hname (isTextual_transferRow hq hm source target)
      (fieldsOf_contract rfl) (by decide) hc source
  · intro issuer target quantity memo hq hm
    have hname : "issue" ∈ calls := by decide
    rw [← bytes_issueRow]
    exact isPackedTo_call hname (isTextual_issueRow hq hm target)
      (fieldsOf_contract rfl) (by decide) hc issuer
  · intro owner symbol payer hs
    have hname : "open" ∈ calls := by decide
    rw [← bytes_openRow]
    exact isPackedTo_call hname (isTextual_openRow hs owner payer)
      (fieldsOf_contract rfl) (by decide) hc payer

def oneToken : Asset := ⟨10000, ⟨0x53595304⟩⟩

theorem calls_packed_oneToken :
    IsPackedTo (.new {}) (transfer (named "alice") (named "bob") oneToken "hi")
      [0, 0, 0, 0, 0, 0x85, 0x5c, 0x34, 0, 0, 0, 0, 0, 0, 0x0e, 0x3d, 0x10, 0x27, 0, 0, 0, 0, 0, 0,
        4, 0x53, 0x59, 0x53, 0, 0, 0, 0, 2, 0x68, 0x69] ∧
    IsPackedTo (.new {}) (issue (named "alice") (named "bob") oneToken "")
      [0, 0, 0, 0, 0, 0, 0x0e, 0x3d, 0x10, 0x27, 0, 0, 0, 0, 0, 0, 4, 0x53, 0x59, 0x53, 0, 0, 0, 0,
        0] ∧
    IsPackedTo (.new {}) (openBalance (named "bob") oneToken.symbol (named "alice"))
      [0, 0, 0, 0, 0, 0, 0x0e, 0x3d, 4, 0x53, 0x59, 0x53, 0, 0, 0, 0, 0, 0, 0, 0, 0, 0x85, 0x5c,
        0x34] := by
  have hproper : oneToken.symbol.IsProper := Symbol.isProper_iff.mpr (by decide)
  obtain ⟨-, htransfer, hissue, hopen⟩ := calls_packed []
  exact ⟨htransfer (named "alice") (named "bob") oneToken "hi" hproper (by decide),
    hissue (named "alice") (named "bob") oneToken "" hproper (by decide),
    hopen (named "bob") oneToken.symbol (named "alice") hproper⟩

end ChainKit.TokenContract
