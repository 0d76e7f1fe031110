import ChainKit.Proofs.Abi.Coverage
import ChainKit.Proofs.Transaction.Packed

namespace ChainKit
set_option autoImplicit true
open Abi (TypeTable Covers)

namespace Abi.Standard

theorem isSteady_transaction :
    Decode.IsSteady transactionContract.types (.struct "transaction") := by
  apply TypeTable.isSteady_of_structs types_transaction.1 types_transaction.2.1
  all_goals decide

end Abi.Standard

section Parts

variable {t : TypeTable} (ht : t.structs = Abi.Standard.transactionStructs)
include ht

theorem PermissionLevel.covers :
    Covers t (.struct "permission_level") fun p v => PermissionLevel.toJson p = v := by
  apply Covers.struct (TypeTable.struct?_eq ht rfl)
  intro levels cs h
  obtain ⟨actor, _, _, rfl, h, hactor⟩ := h.covered .name nofun
  obtain ⟨permission, _, _, rfl, h, hpermission⟩ := h.covered .name nofun
  cases h.eq_nil
  exact ⟨⟨actor, permission⟩, _, rfl, hactor _ rfl (hpermission _ rfl rfl)⟩

theorem TransactionExtension.covers :
    Covers t (.struct "extension") fun e v => TransactionExtension.toJson e = v := by
  apply Covers.struct (TypeTable.struct?_eq ht rfl)
  intro levels cs h
  obtain ⟨type, _, _, rfl, h, htype⟩ := h.covered .word16 nofun
  obtain ⟨bs, _, _, rfl, h, hdata⟩ := h.covered .bytes nofun
  cases h.eq_nil
  exact ⟨⟨type, bs⟩, _, rfl, htype _ rfl (hdata _ rfl rfl)⟩

theorem Action.covers : Covers t (.struct "action") fun a v => Action.toJson a = .ok v := by
  apply Covers.struct (TypeTable.struct?_eq ht rfl)
  intro levels cs h
  obtain ⟨account, _, _, rfl, h, haccount⟩ := h.covered .name nofun
  obtain ⟨name, _, _, rfl, h, hname⟩ := h.covered .name nofun
  obtain ⟨authorization, _, _, rfl, h, hauthorization⟩ :=
    h.covered (.list (PermissionLevel.covers ht)) nofun
  obtain ⟨bs, _, _, rfl, h, hdata⟩ := h.covered .bytes nofun
  cases h.eq_nil
  exact ⟨⟨account, name, authorization, .packed bs⟩, _, rfl,
    haccount _ rfl (hname _ rfl (hauthorization _ rfl (hdata _ rfl rfl)))⟩

theorem Action.covers_list : Covers t (.array (.struct "action")) fun (as : List Action) v =>
    ∃ vs, as.mapM toJson = .ok vs ∧ .arr vs = v := by
  apply (Covers.each (covers ht)).mono
  rintro as v ⟨vs, heach, hv⟩
  exact ⟨vs, Result.mapM_of_each heach, hv⟩

end Parts

namespace Transaction

theorem covers {t : TypeTable} (ht : t.structs = Abi.Standard.transactionStructs) :
    Covers t (.struct "transaction") fun x v => toJson x = .ok v ∧ packedPart x = x := by
  apply Covers.struct (TypeTable.struct?_eq ht rfl)
  intro levels cs h
  obtain ⟨expiration, _, _, rfl, h, hexpiration⟩ := h.covered .timePointSec nofun
  obtain ⟨num, _, _, rfl, h, hnum⟩ := h.covered .word16 nofun
  obtain ⟨mark, _, _, rfl, h, hmark⟩ := h.covered .word32 nofun
  obtain ⟨net, _, _, rfl, h, hnet⟩ := h.covered .varuint nofun
  obtain ⟨cpu, _, _, rfl, h, hcpu⟩ := h.covered .word8 nofun
  obtain ⟨delay, _, _, rfl, h, hdelay⟩ := h.covered .varuint nofun
  obtain ⟨contextFree, _, _, ⟨freeValues, hfreeJson, rfl⟩, h, hfree⟩ :=
    h.covered (Action.covers_list ht) nofun
  obtain ⟨actions, _, _, ⟨actionValues, hactionJson, rfl⟩, h, hactions⟩ :=
    h.covered (Action.covers_list ht) nofun
  obtain ⟨extensions, _, _, rfl, h, hextensions⟩ :=
    h.covered (.list (TransactionExtension.covers ht)) nofun
  cases h.eq_nil
  let x : Transaction := {
    expiration, refBlockNum := num, refBlockMark := mark, maxNetUsageWords := net,
    maxCpuUsageMs := cpu, delaySec := delay, contextFreeActions := contextFree, actions, extensions }
  exact ⟨x, _,
    ⟨Result.bind_eq_ok.mpr ⟨_, hfreeJson, Result.bind_eq_ok.mpr ⟨_, hactionJson, rfl⟩⟩, rfl⟩,
    hexpiration _ rfl (hnum _ rfl (hmark _ rfl (hnet _ rfl (hcpu _ rfl
    (hdelay _ rfl (hfree _ rfl (hactions _ rfl (hextensions _ rfl rfl))))))))⟩

variable {c c' : Abi.Context}

/-- What bytes are unpacked as is read as a transaction, and that is packed as the wire form of a
content that the bytes spell. -/
theorem exists_of_unpackTransaction (h : Abi.Context.unpackTransaction bs c = .ok w c') :
    ∃ x v content, c' = c ∧ ofJson w = .ok x ∧ x.toJson = .ok v ∧
      Abi.Content.HasType Abi.Standard.transactionContract.types c.config.levels
        (.struct "transaction") content ∧
      content.toJson = w ∧ content.IsSpelledBy bs ∧
      ∀ c₂ : Abi.Context, c₂.config = c.config →
        Abi.Context.packTransaction v c₂ = .ok content.bytes c₂ := by
  obtain ⟨hdecode, hc⟩ := unpackTransaction_eq_ok.mp h
  obtain ⟨x, v, content, ⟨hjson, hx⟩, hcontent, htype, rfl, hspelled, hencode⟩ :=
    Abi.Contract.exists_written_of_decode Abi.Standard.types_transaction.2.2
      Abi.Standard.isSteady_transaction rfl (covers Abi.Standard.types_transaction.1) hdecode
  have hread := ofJson_restored Abi.Standard.types_transaction.1 hjson hcontent
  rw [hx] at hread
  refine ⟨x, v, content, hc, hread, hjson, htype, rfl, hspelled, ?_⟩
  intro c₂ hconfig
  rw [← hconfig] at hencode
  exact packTransaction_eq_ok.mpr ⟨hencode, rfl⟩

theorem unpackTransaction_eq_error (h : Abi.Context.unpackTransaction bs c = .error e c') :
    ∃ fault, e = .decode Abi.Standard.transactionType fault := by
  rw [Abi.Context.unpackTransaction,
    Abi.Context.settle_recorded (Abi.Context.decodeWith_apply _ _ _),
    Abi.Context.settle_noting_eq_error] at h
  exact Abi.Contract.decode_eq_error Abi.Standard.types_transaction.2.2 h.1

theorem deserialize_eq_error (h : deserialize bs c = .error e c') :
    ∃ e', Abi.Context.unpackTransaction bs c = .error e' c' ∧ e = .abi e' := by
  cases hunpack : Abi.Context.unpackTransaction bs c with
  | ok w s =>
    obtain ⟨x, v, content, -, hx, -⟩ := exists_of_unpackTransaction hunpack
    have hok := deserialize_eq_ok.mpr ⟨w, hunpack, hx⟩
    cases hok.symm.trans h
  | error e' s =>
    have hfail : Action.inContext (Abi.Context.unpackTransaction bs) c = .error (.abi e') s := by
      simp only [Action.inContext, EStateM.adaptExcept, hunpack]
    rw [deserialize] at h
    simp only [bind, EStateM.bind, hfail] at h
    cases h
    exact ⟨e', rfl, rfl⟩

/-- Bytes that are decoded as a transaction are unpacked as one, and if its reference block and
expiration are set it is packed under the same limits as the wire form of the content that the bytes
spell: the same bytes, except that counts, lengths and variable-length integers come out in their
shortest form. Nothing else fails than decoding the bytes. -/
theorem serialize_deserialize (bs : Bytes) (c : Abi.Context) :
    (∀ e c', deserialize bs c = .error e c' →
      ∃ fault, e = .abi (.decode Abi.Standard.transactionType fault)) ∧
    ∀ w c', Abi.Context.unpackTransaction bs c = .ok w c' →
      ∃ x content, deserialize bs c = .ok x c ∧
        Abi.Content.HasType Abi.Standard.transactionContract.types c.config.levels
          (.struct "transaction") content ∧
        content.toJson = w ∧ content.IsSpelledBy bs ∧
        (content.bytes = bs ∨ content.bytes.length < bs.length) ∧
        (x.refBlockMark ≠ 0 → x.expiration.secs ≠ 0 →
          ∀ c₂ : Abi.Context, c₂.config = c.config → x.serialize c₂ = .ok content.bytes c₂) := by
  constructor
  · intro e c' h
    obtain ⟨e', hunpack, rfl⟩ := deserialize_eq_error h
    obtain ⟨fault, rfl⟩ := unpackTransaction_eq_error hunpack
    exact ⟨fault, rfl⟩
  · intro w c' h
    obtain ⟨x, v, content, rfl, hread, hjson, htype, hw, hspelled, hpack⟩ :=
      exists_of_unpackTransaction h
    have hx : deserialize bs c' = .ok x c' := deserialize_eq_ok.mpr ⟨w, h, hread⟩
    refine ⟨x, content, hx, htype, hw, hspelled, hspelled.eq_or_shorter, ?_⟩
    intro hmark hexpiration c₂ hconfig
    exact serialize_eq_ok.mpr ⟨hmark, hexpiration, v, hjson, hpack c₂ hconfig⟩

def shortBytes : Bytes :=
  [0, 0x10, 0x5e, 0x5f, 1, 0, 0xef, 0xbe, 0xad, 0xde, 0, 0, 0, 0,
    1, 0, 0, 0, 0, 0, 0, 0, 3, 0, 0, 0, 0, 0, 0, 0, 4, 0, 1, 7, 0]

def longBytes : Bytes := shortBytes.take 14 ++ 0x81 :: 0 :: shortBytes.drop 15

theorem serialize_deserialize_long :
    ∃ x, ∃ content : Abi.Content, deserialize longBytes (.new {}) = .ok x (.new {}) ∧
      x.serialize (.new {}) = .ok shortBytes (.new {}) ∧
      content.IsSpelledBy longBytes ∧ content.bytes = shortBytes ∧
      shortBytes.length < longBytes.length := by
  have hround : (deserialize longBytes >>= serialize).run' (.new {}) = some shortBytes := by
    decide +kernel
  have hdecode : (Abi.Standard.transactionContract.decode {} Abi.Standard.transactionType
      longBytes).toOption.isSome := by
    decide +kernel
  obtain ⟨w, hw⟩ := Option.isSome_iff_exists.mp hdecode
  have hunpack : Abi.Context.unpackTransaction longBytes (.new {}) = .ok w (.new {}) :=
    unpackTransaction_eq_ok.mpr ⟨Result.toOption_eq_some.mp hw, rfl⟩
  obtain ⟨x, content, hx, -, -, hspelled, -, hpack⟩ :=
    (serialize_deserialize longBytes (.new {})).2 w (.new {}) hunpack
  obtain ⟨c, hpacked⟩ := Wire.eq_ok_of_run' hround
  rw [Wire.bind_ok hx] at hpacked
  obtain ⟨hmark, hexpiration, -⟩ := serialize_eq_ok.mp hpacked
  have hsame := hpack hmark hexpiration (.new {}) rfl
  have hbytes : shortBytes = content.bytes := by
    injection hpacked.symm.trans hsame
  exact ⟨x, content, hx, hbytes.symm ▸ hsame, hspelled, hbytes.symm, by decide⟩

end Transaction
end ChainKit
