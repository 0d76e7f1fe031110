import ChainKit.Proofs.Abi.Context.Operation
import ChainKit.Proofs.Abi.Plain
import ChainKit.Proofs.Abi.Record
import ChainKit.Transaction.Basic

namespace ChainKit
set_option autoImplicit true
open Json (Source Record)
open Abi (TypeTable Restores Restored Accepts)

namespace Abi.Standard

def transactionStructs : List StructType :=
  let header : List Field :=
    [⟨"expiration", .builtin .timePointSec⟩, ⟨"ref_block_num", .builtin (.uint .w16)⟩,
      ⟨"ref_block_prefix", .builtin (.uint .w32)⟩, ⟨"max_net_usage_words", .builtin .varuint⟩,
      ⟨"max_cpu_usage_ms", .builtin (.uint .w8)⟩, ⟨"delay_sec", .builtin .varuint⟩]
  [⟨"permission_level", [⟨"actor", .builtin .name⟩, ⟨"permission", .builtin .name⟩]⟩,
    ⟨"action", [⟨"account", .builtin .name⟩, ⟨"name", .builtin .name⟩,
      ⟨"authorization", .array (.struct "permission_level")⟩, ⟨"data", .builtin .bytes⟩]⟩,
    ⟨"extension", [⟨"type", .builtin (.uint .w16)⟩, ⟨"data", .builtin .bytes⟩]⟩,
    ⟨"transaction_header", header⟩,
    ⟨"transaction", header ++ [⟨"context_free_actions", .array (.struct "action")⟩,
      ⟨"actions", .array (.struct "action")⟩,
      ⟨"transaction_extensions", .array (.struct "extension")⟩]⟩]

theorem types_transaction : transactionContract.types.structs = transactionStructs ∧
    transactionContract.types.variants = [] ∧
    transactionContract.types.view transactionType = .ok (.struct "transaction") := by
  decide +kernel

theorem hasPlainFields_transaction : transactionContract.types.HasPlainFields "transaction" := by
  apply TypeTable.HasPlainFields.of_structs types_transaction.1 types_transaction.2.1
  all_goals decide

end Abi.Standard

section Parts

variable {t : TypeTable} (ht : t.structs = Abi.Standard.transactionStructs)
include ht

theorem PermissionLevel.restores (p : PermissionLevel) :
    Restores t (.struct "permission_level") p.toJson PermissionLevel.ofSource? p := by
  apply Restores.record (TypeTable.struct?_eq ht rfl) (by decide) (by decide)
  intro r hr
  rw [hr.required? "actor" (.name p.actor) (by decide) rfl,
    hr.required? "permission" (.name p.permission) (by decide) rfl]
  rfl

theorem PermissionLevel.accepts (p : PermissionLevel) :
    Accepts t (depth + 2) (.struct "permission_level") p.toJson := by
  apply Accepts.struct (TypeTable.struct?_eq ht rfl)
  simp only [List.forall_mem_cons]
  exact ⟨⟨_, rfl, .name p.actor⟩, ⟨_, rfl, .name p.permission⟩, nofun⟩

theorem TransactionExtension.restores (e : TransactionExtension) :
    Restores t (.struct "extension") e.toJson TransactionExtension.ofSource? e := by
  apply Restores.record (TypeTable.struct?_eq ht rfl) (by decide) (by decide)
  intro r hr
  rw [hr.required? "type" (.uint .w16 e.type.toNat_lt rfl rfl) (by decide) rfl,
    hr.required? "data" (.bytes e.data) (by decide) rfl]
  simp

theorem TransactionExtension.accepts {e : TransactionExtension} (h : e.data.length < 2 ^ 32) :
    Accepts t (depth + 2) (.struct "extension") e.toJson := by
  apply Accepts.struct (TypeTable.struct?_eq ht rfl)
  simp only [List.forall_mem_cons]
  have htype : Accepts t (depth + 1) (.builtin (.uint .w16)) (.ofNat e.type.toNat) :=
    .shown (l := .uint .w16 e.type.toNat) e.type.toNat_lt trivial nofun
  exact ⟨⟨_, rfl, htype⟩, ⟨_, rfl, .bytes h⟩, nofun⟩

theorem Action.restores {a : Action} (h : a.toJson = .ok v) :
    Restores t (.struct "action") v (fun s => (ofLayout s).toOption) a := by
  obtain ⟨account, name, authorization, data⟩ := a
  cases data with
  | json value => cases h
  | packed bs =>
    cases h
    have hfields : Restores t (.struct "action")
        (.obj [("account", .str account.text), ("name", .str name.text),
          ("authorization", .arr (authorization.map PermissionLevel.toJson)),
          ("data", .str (Hex.encode bs))])
        ofSource? (⟨account, name, authorization, .packed []⟩, Hex.encode bs) := by
      apply Restores.record (TypeTable.struct?_eq ht rfl) (by decide) (by decide)
      intro r hr
      have hlevels := hr.required? "authorization"
        (.list (PermissionLevel.restores ht) authorization) (by decide) rfl
      rw [hr.required? "account" (.name account) (by decide) rfl,
        hr.required? "name" (.name name) (by decide) rfl, hlevels,
        hr.required? "data" (.hexText bs) (by decide) rfl]
      rfl
    apply hfields.mono
    intro s hs
    simp only [ofLayout, hs, Hex.decode_encode]
    rfl

omit ht in
theorem Action.exists_toJson {a : Action} (h : a.isPacked) : ∃ v, a.toJson = .ok v := by
  obtain ⟨account, name, authorization, data⟩ := a
  cases data with
  | json value => cases h
  | packed bs => exact ⟨_, rfl⟩

/-- Whether the lists and byte strings of an action have lengths below `2 ^ 32`. -/
structure Action.Fits (a : Action) : Prop where
  authorization : a.authorization.length < 2 ^ 32
  data : ∀ bs ∈ a.packed?, bs.length < 2 ^ 32

theorem Action.accepts {a : Action} (h : a.toJson = .ok v) (hfits : a.Fits) :
    Accepts t (depth + 4) (.struct "action") v := by
  obtain ⟨account, name, authorization, data⟩ := a
  cases data with
  | json value => cases h
  | packed bs =>
    cases h
    apply Accepts.struct (TypeTable.struct?_eq ht rfl)
    simp only [List.forall_mem_cons]
    have hlevels : Accepts t (depth + 3) (.array (.struct "permission_level"))
        (.arr (authorization.map PermissionLevel.toJson)) := by
      apply Accepts.array
      · rw [List.length_map]
        exact hfits.authorization
      · intro w hw
        obtain ⟨p, -, rfl⟩ := List.mem_map.mp hw
        exact PermissionLevel.accepts ht p
    exact ⟨⟨_, rfl, .name account⟩, ⟨_, rfl, .name name⟩, ⟨_, rfl, hlevels⟩,
      ⟨_, rfl, .bytes (hfits.data bs rfl)⟩, nofun⟩

theorem Action.accepts_list {as : List Action} (h : as.mapM toJson = .ok vs)
    (hlen : as.length < 2 ^ 32) (hfits : ∀ a ∈ as, a.Fits) :
    Accepts t (depth + 5) (.array (.struct "action")) (.arr vs) := by
  have heach := Result.each_of_mapM h
  apply Accepts.array
  · rw [← heach.length_eq]
    exact hlen
  · intro v hv
    obtain ⟨a, ha, hav⟩ := heach.mem hv
    exact Action.accepts ht hav (hfits a ha)

theorem Action.exists_layouts {as : List Action} (hr : Restored t members fs r) (name : String)
    (h : as.mapM toJson = .ok vs) (hm : Json.member? members name = some (.arr vs))
    (hf : ⟨name, .array (.struct "action")⟩ ∈ fs) :
    ∃ layouts, r.required? name (Source.list? some) = some layouts ∧
      layouts.mapM ofLayout = .ok as := by
  have heach := (Result.each_of_mapM h).flip fun a v hv => Action.restores ht hv
  have hread := hr.required? name (.each heach) hf hm
  obtain ⟨s, hs, hlist⟩ := Option.bind_eq_some_iff.mp hread
  obtain ⟨layouts, rfl, hlayouts⟩ := Source.list?_eq_some hlist
  refine ⟨layouts, ?_, Result.toOption_eq_some.mp ((Result.toOption_mapM _ _).trans hlayouts)⟩
  rw [Record.required?, hs]
  exact Source.list?_some layouts

end Parts

namespace Transaction

/-- What the packed form of a transaction keeps. -/
def packedPart (x : Transaction) : Transaction :=
  { x with chainId := none, policy := {}, signed := none, reportedId := none }

/-- Whether the lists and byte strings of a transaction have lengths below `2 ^ 32`. -/
structure Fits (x : Transaction) : Prop where
  contextFree : x.contextFreeActions.length < 2 ^ 32
  actions : x.actions.length < 2 ^ 32
  extensions : x.extensions.length < 2 ^ 32
  action : ∀ a ∈ x.allActions, a.Fits
  extension : ∀ e ∈ x.extensions, e.data.length < 2 ^ 32

section Layout

variable {t : TypeTable} (ht : t.structs = Abi.Standard.transactionStructs)
include ht

theorem ofJson_restored {x : Transaction} (h : x.toJson = .ok v)
    (hc : Abi.Content.ofJson? t levels (.struct "transaction") v = some c) :
    ofJson c.toJson = .ok x.packedPart := by
  obtain ⟨contextFree, hcontextFree, h⟩ := Result.bind_eq_ok.mp h
  obtain ⟨actions, hactions, h⟩ := Result.bind_eq_ok.mp h
  cases h
  obtain ⟨r, hrecord, hr⟩ :=
    Abi.exists_restored layout (TypeTable.struct?_eq ht rfl) (by decide) (by decide) hc
  have hexpiration := hr.required? "expiration" (.timePointSec x.expiration) (by decide) rfl
  have hnum :=
    hr.required? "ref_block_num" (.uint .w16 x.refBlockNum.toNat_lt rfl rfl) (by decide) rfl
  have hmark := hr.required? "ref_block_prefix" (.word32 x.refBlockMark) (by decide) rfl
  have hnet := hr.required? "max_net_usage_words" (.varuint x.maxNetUsageWords) (by decide) rfl
  have hcpu :=
    hr.required? "max_cpu_usage_ms" (.uint .w8 x.maxCpuUsageMs.toNat_lt rfl rfl) (by decide) rfl
  have hdelay := hr.required? "delay_sec" (.varuint x.delaySec) (by decide) rfl
  have hextensions := hr.required? "transaction_extensions"
    (.list (TransactionExtension.restores ht) x.extensions) (by decide) rfl
  obtain ⟨contextFreeLayouts, hcontextFreeRead, hcontextFreeLayouts⟩ :=
    Action.exists_layouts ht hr "context_free_actions" hcontextFree rfl (by decide)
  obtain ⟨actionLayouts, hactionsRead, hactionLayouts⟩ :=
    Action.exists_layouts ht hr "actions" hactions rfl (by decide)
  have hread : ofSource? (.ofJson c.toJson) =
      some ({ x.packedPart with contextFreeActions := [], actions := [] },
        contextFreeLayouts, actionLayouts) := by
    unfold ofSource?
    rw [hrecord]
    simp only [Option.bind_eq_bind, Option.bind_some, hexpiration, hnum, hmark, hnet, hcpu, hdelay,
      hextensions, hcontextFreeRead, hactionsRead]
    simp [packedPart]
  simp only [ofJson, hread, hcontextFreeLayouts, hactionLayouts]
  rfl

theorem accepts {x : Transaction} (h : x.toJson = .ok v) (hfits : x.Fits) :
    Accepts t 6 (.struct "transaction") v := by
  obtain ⟨contextFree, hcontextFree, h⟩ := Result.bind_eq_ok.mp h
  obtain ⟨actions, hactions, h⟩ := Result.bind_eq_ok.mp h
  cases h
  apply Accepts.struct (TypeTable.struct?_eq ht rfl)
  have hexpiration : Accepts t 5 (.builtin .timePointSec) (.str x.expiration.text) :=
    .shown (l := .timePointSec x.expiration) trivial trivial nofun
  have hnum : Accepts t 5 (.builtin (.uint .w16)) (.ofNat x.refBlockNum.toNat) :=
    .shown (l := .uint .w16 x.refBlockNum.toNat) x.refBlockNum.toNat_lt trivial nofun
  have hmark : Accepts t 5 (.builtin (.uint .w32)) (.ofNat x.refBlockMark.toNat) :=
    .shown (l := .uint .w32 x.refBlockMark.toNat) x.refBlockMark.toNat_lt trivial nofun
  have hnet : Accepts t 5 (.builtin .varuint) (.ofNat x.maxNetUsageWords.toNat) :=
    .shown (l := .varuint x.maxNetUsageWords.toNat) x.maxNetUsageWords.toNat_lt trivial nofun
  have hcpu : Accepts t 5 (.builtin (.uint .w8)) (.ofNat x.maxCpuUsageMs.toNat) :=
    .shown (l := .uint .w8 x.maxCpuUsageMs.toNat) x.maxCpuUsageMs.toNat_lt trivial nofun
  have hdelay : Accepts t 5 (.builtin .varuint) (.ofNat x.delaySec.toNat) :=
    .shown (l := .varuint x.delaySec.toNat) x.delaySec.toNat_lt trivial nofun
  have hfree : Accepts t 5 (.array (.struct "action")) (.arr contextFree) :=
    Action.accepts_list ht hcontextFree hfits.contextFree
      fun a ha => hfits.action a (List.mem_append_left _ ha)
  have hacts : Accepts t 5 (.array (.struct "action")) (.arr actions) :=
    Action.accepts_list ht hactions hfits.actions
      fun a ha => hfits.action a (List.mem_append_right _ ha)
  have hextensions : Accepts t 5 (.array (.struct "extension"))
      (.arr (x.extensions.map TransactionExtension.toJson)) := by
    apply Accepts.array
    · rw [List.length_map]
      exact hfits.extensions
    · intro w hw
      obtain ⟨e, he, rfl⟩ := List.mem_map.mp hw
      exact TransactionExtension.accepts ht (hfits.extension e he)
  simp only [List.forall_mem_append, List.forall_mem_cons]
  constructor
  · exact ⟨⟨_, rfl, hexpiration⟩, ⟨_, rfl, hnum⟩, ⟨_, rfl, hmark⟩, ⟨_, rfl, hnet⟩, ⟨_, rfl, hcpu⟩,
      ⟨_, rfl, hdelay⟩, nofun⟩
  · exact ⟨⟨_, rfl, hfree⟩, ⟨_, rfl, hacts⟩, ⟨_, rfl, hextensions⟩, nofun⟩

end Layout

theorem exists_toJson {x : Transaction} (h : ∀ a ∈ x.allActions, a.isPacked) :
    ∃ v, x.toJson = .ok v := by
  have hpacked : ∀ as : List Action, (∀ a ∈ as, a.isPacked) →
      ∃ vs, as.mapM Action.toJson = .ok vs := by
    intro as has
    apply Result.exists_mapM_ok
    intro a ha
    exact Action.exists_toJson (has a ha)
  obtain ⟨contextFree, hcontextFree⟩ :=
    hpacked x.contextFreeActions fun a ha => h a (List.mem_append_left _ ha)
  obtain ⟨actions, hactions⟩ := hpacked x.actions fun a ha => h a (List.mem_append_right _ ha)
  rw [toJson, hcontextFree, hactions]
  exact ⟨_, rfl⟩

variable {c c' : Abi.Context}

theorem inContext_eq_ok {op : Abi.Context.Op α} :
    Action.inContext op c = .ok a c' ↔ op c = .ok a c' := by
  simp only [Action.inContext, EStateM.adaptExcept]
  cases op c with
  | ok b s =>
    constructor
    · rintro ⟨⟩
      rfl
    · rintro ⟨⟩
      rfl
  | error e s => exact ⟨nofun, nofun⟩

theorem throw_bind_ne_ok (e : ClientError) (f : α → Action.Op β) (c c' : Abi.Context) (b : β) :
    (throw e >>= f) c ≠ .ok b c' := by
  intro h
  cases h

theorem packTransaction_eq_ok : Abi.Context.packTransaction v c = .ok bs c' ↔
    Abi.Standard.transactionContract.encode c.config Abi.Standard.transactionType v = .ok bs ∧
      c' = c := by
  rw [Abi.Context.packTransaction, Abi.Context.settle_recorded (Abi.Context.encodeWith_apply _ _ _),
    Abi.Context.settle_noting_eq_ok]

theorem unpackTransaction_eq_ok : Abi.Context.unpackTransaction bs c = .ok v c' ↔
    Abi.Standard.transactionContract.decode c.config Abi.Standard.transactionType bs = .ok v ∧
      c' = c := by
  rw [Abi.Context.unpackTransaction,
    Abi.Context.settle_recorded (Abi.Context.decodeWith_apply _ _ _),
    Abi.Context.settle_noting_eq_ok]

theorem serialize_eq_ok {x : Transaction} : x.serialize c = .ok bs c' ↔
    x.refBlockMark ≠ 0 ∧ x.expiration.secs ≠ 0 ∧ ∃ v, x.toJson = .ok v ∧
      Abi.Context.packTransaction v c = .ok bs c' := by
  unfold serialize
  by_cases hmark : x.refBlockMark = 0
  · rw [if_pos hmark]
    exact ⟨fun h => (throw_bind_ne_ok _ _ _ _ _ h).elim, fun h => absurd hmark h.1⟩
  rw [if_neg hmark]
  by_cases hexpiration : x.expiration.secs = 0
  · rw [if_pos hexpiration]
    exact ⟨fun h => (throw_bind_ne_ok _ _ _ _ _ h).elim, fun h => absurd hexpiration h.2.1⟩
  rw [if_neg hexpiration]
  cases x.toJson with
  | ok v =>
    constructor
    · intro h
      exact ⟨hmark, hexpiration, v, rfl, inContext_eq_ok.mp h⟩
    · rintro ⟨-, -, w, hw, h⟩
      cases hw
      exact inContext_eq_ok.mpr h
  | error e =>
    constructor
    · intro h
      cases h
    · rintro ⟨-, -, w, hw, -⟩
      cases hw

theorem deserialize_eq_ok {x : Transaction} : deserialize bs c = .ok x c' ↔
    ∃ v, Abi.Context.unpackTransaction bs c = .ok v c' ∧ ofJson v = .ok x := by
  unfold deserialize
  constructor
  · intro h
    obtain ⟨v, s, hv, h⟩ := Wire.bind_eq_ok h
    refine ⟨v, ?_⟩
    cases hx : ofJson v with
    | ok y =>
      rw [hx] at h
      cases h
      exact ⟨inContext_eq_ok.mp hv, rfl⟩
    | error e =>
      rw [hx] at h
      cases h
  · rintro ⟨v, hv, hx⟩
    rw [Wire.bind_ok (inContext_eq_ok.mpr hv), hx]
    rfl

theorem deserialize_of_serialize {x : Transaction} (h : x.serialize c = .ok bs c') :
    c' = c ∧ ∀ c₂ : Abi.Context, c₂.config = c.config →
      deserialize bs c₂ = .ok x.packedPart c₂ := by
  obtain ⟨-, -, v, hv, hpack⟩ := serialize_eq_ok.mp h
  obtain ⟨hencode, hc⟩ := packTransaction_eq_ok.mp hpack
  refine ⟨hc, ?_⟩
  intro c₂ hconfig
  obtain ⟨content, hcontent, hdecode⟩ := Abi.Contract.decode_encode_of_plain
    Abi.Standard.types_transaction.2.2 Abi.Standard.hasPlainFields_transaction hencode
  rw [← hconfig] at hdecode
  exact deserialize_eq_ok.mpr ⟨content.toJson, unpackTransaction_eq_ok.mpr ⟨hdecode, rfl⟩,
    ofJson_restored Abi.Standard.types_transaction.1 hv hcontent⟩

theorem exists_serialize {x : Transaction} (hmark : x.refBlockMark ≠ 0)
    (hexpiration : x.expiration.secs ≠ 0) (hpacked : ∀ a ∈ x.allActions, a.isPacked)
    (hdepth : 5 ≤ c.config.maxDepth) (hfits : x.Fits) : ∃ bs, x.serialize c = .ok bs c := by
  obtain ⟨v, hv⟩ := exists_toJson hpacked
  have haccepts := accepts Abi.Standard.types_transaction.1 hv hfits
  obtain ⟨content, hcontent⟩ := haccepts c.config.levels (Nat.succ_le_succ hdepth)
  have hencode : Abi.Standard.transactionContract.encode c.config Abi.Standard.transactionType v =
      .ok content.bytes :=
    (Abi.Contract.encode_eq_ok Abi.Standard.types_transaction.2.2).mpr ⟨content, hcontent, rfl⟩
  exact ⟨content.bytes, serialize_eq_ok.mpr
    ⟨hmark, hexpiration, v, hv, packTransaction_eq_ok.mpr ⟨hencode, rfl⟩⟩⟩

/-- A transaction that is packed is unpacked again under the same limits, save for what its packed
form does not keep; and a transaction that is complete is packed, if five nested values may be
entered and its lengths take 32 bits. -/
theorem deserialize_serialize (x : Transaction) (c : Abi.Context) :
    (∀ bs c', x.serialize c = .ok bs c' → c' = c ∧ ∀ c₂ : Abi.Context, c₂.config = c.config →
      deserialize bs c₂ = .ok x.packedPart c₂) ∧
    (x.refBlockMark ≠ 0 → x.expiration.secs ≠ 0 → (∀ a ∈ x.allActions, a.isPacked) →
      5 ≤ c.config.maxDepth → x.Fits → ∃ bs, x.serialize c = .ok bs c) :=
  ⟨fun _ _ => deserialize_of_serialize, exists_serialize⟩

def sample : Transaction where
  chainId := some (.zero 32)
  expiration := ⟨1600000000⟩
  refBlockNum := 1
  refBlockMark := 0xdeadbeef
  delaySec := 300
  contextFreeActions := [⟨⟨1⟩, ⟨2⟩, [], .packed [7]⟩]
  actions := [⟨⟨3⟩, ⟨4⟩, [⟨⟨5⟩, ⟨6⟩⟩], .packed []⟩]
  extensions := [⟨1, [0xff]⟩]

theorem fits_sample : sample.Fits where
  contextFree := by decide
  actions := by decide
  extensions := by decide
  action := by
    intro a ha
    rcases List.mem_cons.mp ha with rfl | ha
    · exact ⟨by decide, by rintro bs ⟨⟩; decide⟩
    · rcases List.mem_singleton.mp ha with rfl
      exact ⟨by decide, by rintro bs ⟨⟩; decide⟩
  extension := by decide

theorem deserialize_serialize_sample :
    ∃ bs, sample.serialize (.new { maxDepth := 5 }) = .ok bs (.new { maxDepth := 5 }) ∧
      deserialize bs (.new { maxDepth := 5 }) =
        .ok { sample with chainId := none } (.new { maxDepth := 5 }) := by
  obtain ⟨hround, htotal⟩ := deserialize_serialize sample (.new { maxDepth := 5 })
  obtain ⟨bs, hserialize⟩ := htotal (by decide) (by decide) (by decide) (by decide) fits_sample
  obtain ⟨-, hdeserialize⟩ := hround bs _ hserialize
  exact ⟨bs, hserialize, hdeserialize _ rfl⟩

end Transaction
end ChainKit
