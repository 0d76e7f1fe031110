import ChainKit.Proofs.Abi.Coverage
import ChainKit.Proofs.Abi.Document.Stored

namespace ChainKit.Abi
set_option autoImplicit true
open Content

namespace Standard

theorem isSteady_abiDef : Decode.IsSteady abiDefContract.types (.struct "abi_def") := by
  apply TypeTable.isSteady_of_structs types_abiDef.1 types_abiDef.2.1
  all_goals decide

end Standard

section Parts

variable {t : TypeTable} (ht : t.structs = Standard.abiDefStructs)
include ht

theorem AliasDef.covers : Covers t (.struct "type_def") fun d v => AliasDef.toJson d = v := by
  apply Covers.struct (TypeTable.struct?_eq ht rfl)
  intro levels cs h
  obtain ⟨name, _, _, rfl, h, hname⟩ := h.covered .string nofun
  obtain ⟨target, _, _, rfl, h, htarget⟩ := h.covered .string nofun
  cases h.eq_nil
  exact ⟨⟨name, target⟩, _, rfl, hname _ rfl (htarget _ rfl rfl)⟩

theorem FieldDef.covers : Covers t (.struct "field_def") fun d v => FieldDef.toJson d = v := by
  apply Covers.struct (TypeTable.struct?_eq ht rfl)
  intro levels cs h
  obtain ⟨name, _, _, rfl, h, hname⟩ := h.covered .string nofun
  obtain ⟨type, _, _, rfl, h, htype⟩ := h.covered .string nofun
  cases h.eq_nil
  exact ⟨⟨name, type⟩, _, rfl, hname _ rfl (htype _ rfl rfl)⟩

theorem StructDef.covers : Covers t (.struct "struct_def") fun d v => StructDef.toJson d = v := by
  apply Covers.struct (TypeTable.struct?_eq ht rfl)
  intro levels cs h
  obtain ⟨name, _, _, rfl, h, hname⟩ := h.covered .string nofun
  obtain ⟨base, _, _, rfl, h, hbase⟩ := h.covered .string nofun
  obtain ⟨fields, _, _, rfl, h, hfields⟩ := h.covered (.list (FieldDef.covers ht)) nofun
  cases h.eq_nil
  exact ⟨⟨name, base, fields⟩, _, rfl, hname _ rfl (hbase _ rfl (hfields _ rfl rfl))⟩

theorem ActionDef.covers : Covers t (.struct "action_def") fun d v => ActionDef.toJson d = v := by
  apply Covers.struct (TypeTable.struct?_eq ht rfl)
  intro levels cs h
  obtain ⟨name, _, _, rfl, h, hname⟩ := h.covered .name nofun
  obtain ⟨type, _, _, rfl, h, htype⟩ := h.covered .string nofun
  obtain ⟨prose, _, _, rfl, h, hprose⟩ := h.covered .string nofun
  cases h.eq_nil
  exact ⟨⟨name, type, prose⟩, _, rfl, hname _ rfl (htype _ rfl (hprose _ rfl rfl))⟩

theorem TableDef.covers : Covers t (.struct "table_def") fun d v => TableDef.toJson d = v := by
  apply Covers.struct (TypeTable.struct?_eq ht rfl)
  intro levels cs h
  obtain ⟨name, _, _, rfl, h, hname⟩ := h.covered .name nofun
  obtain ⟨index, _, _, rfl, h, hindex⟩ := h.covered .string nofun
  obtain ⟨keyNames, _, _, rfl, h, hkeyNames⟩ := h.covered .strings nofun
  obtain ⟨keyTypes, _, _, rfl, h, hkeyTypes⟩ := h.covered .strings nofun
  obtain ⟨type, _, _, rfl, h, htype⟩ := h.covered .string nofun
  cases h.eq_nil
  exact ⟨⟨name, index, keyNames, keyTypes, type⟩, _, rfl,
    hname _ rfl (hindex _ rfl (hkeyNames _ rfl (hkeyTypes _ rfl (htype _ rfl rfl))))⟩

theorem Clause.covers : Covers t (.struct "clause_pair") fun d v => Clause.toJson d = v := by
  apply Covers.struct (TypeTable.struct?_eq ht rfl)
  intro levels cs h
  obtain ⟨id, _, _, rfl, h, hid⟩ := h.covered .string nofun
  obtain ⟨body, _, _, rfl, h, hbody⟩ := h.covered .string nofun
  cases h.eq_nil
  exact ⟨⟨id, body⟩, _, rfl, hid _ rfl (hbody _ rfl rfl)⟩

theorem ErrorMessage.covers :
    Covers t (.struct "error_message") fun d v => ErrorMessage.toJson d = v := by
  apply Covers.struct (TypeTable.struct?_eq ht rfl)
  intro levels cs h
  obtain ⟨code, _, _, rfl, h, hcode⟩ := h.covered .word64 nofun
  obtain ⟨message, _, _, rfl, h, hmessage⟩ := h.covered .string nofun
  cases h.eq_nil
  exact ⟨⟨code, message⟩, _, rfl, hcode _ rfl (hmessage _ rfl rfl)⟩

omit ht in
theorem DocumentExtension.lowered_encode (type : UInt16) (bs : Bytes) :
    lowered ⟨type, Hex.encode bs⟩ = ⟨type, Hex.encode bs⟩ := by
  rw [lowered, ← Hex.encode_of_decode (Hex.decode_encode bs)]

theorem DocumentExtension.covers : Covers t (.struct "abi_extension") fun d v =>
    DocumentExtension.toJson d = v ∧ DocumentExtension.lowered d = d := by
  apply Covers.struct (TypeTable.struct?_eq ht rfl)
  intro levels cs h
  obtain ⟨type, _, _, rfl, h, htype⟩ := h.covered .word16 nofun
  obtain ⟨bs, _, _, rfl, h, hdata⟩ := h.covered .bytes nofun
  cases h.eq_nil
  exact ⟨⟨type, Hex.encode bs⟩, _, ⟨rfl, lowered_encode type bs⟩, htype _ rfl (hdata _ rfl rfl)⟩

theorem VariantDef.covers : Covers t (.struct "variant_def") fun d v => VariantDef.toJson d = v := by
  apply Covers.struct (TypeTable.struct?_eq ht rfl)
  intro levels cs h
  obtain ⟨name, _, _, rfl, h, hname⟩ := h.covered .string nofun
  obtain ⟨members, _, _, rfl, h, hmembers⟩ := h.covered .strings nofun
  cases h.eq_nil
  exact ⟨⟨name, members⟩, _, rfl, hname _ rfl (hmembers _ rfl rfl)⟩

theorem ActionResultDef.covers :
    Covers t (.struct "action_result_def") fun d v => ActionResultDef.toJson d = v := by
  apply Covers.struct (TypeTable.struct?_eq ht rfl)
  intro levels cs h
  obtain ⟨name, _, _, rfl, h, hname⟩ := h.covered .name nofun
  obtain ⟨type, _, _, rfl, h, htype⟩ := h.covered .string nofun
  cases h.eq_nil
  exact ⟨⟨name, type⟩, _, rfl, hname _ rfl (htype _ rfl rfl)⟩

theorem DocumentExtension.covers_list :
    Covers t (.array (.struct "abi_extension")) fun (ds : List DocumentExtension) v =>
      .arr (ds.map toJson) = v ∧ ds.map lowered = ds := by
  apply (Covers.each (covers ht)).mono
  rintro ds v ⟨vs, heach, rfl⟩
  have hjson := Result.map_eq_of_each (heach.mono fun _ _ h => h.1)
  have hlowered : ∀ d ∈ ds, d.lowered = d := by
    intro d hd
    obtain ⟨v, -, -, hlowered⟩ := heach.mem_left hd
    exact hlowered
  exact ⟨by rw [hjson], (List.map_congr_left hlowered).trans (List.map_id' ds)⟩

/-- The later lists are both there, the first of them alone, or both absent. -/
theorem Document.covers_later (h : FieldsHave (HasType t levels)
      [⟨"variants", .extension (.array (.struct "variant_def"))⟩,
        ⟨"action_results", .extension (.array (.struct "action_result_def"))⟩] cs) :
    ∃ (variants? : Option (List VariantDef)) (results? : Option (List ActionResultDef)),
      (results?.isSome → variants?.isSome) ∧ ∀ members,
        Json.member? members "variants" =
          variants?.map (fun ds => .arr (ds.map VariantDef.toJson)) →
        Json.member? members "action_results" =
          results?.map (fun ds => .arr (ds.map ActionResultDef.toJson)) →
        fieldsOfJson? (Content.ofJson? t levels) members false
          [⟨"variants", .extension (.array (.struct "variant_def"))⟩,
            ⟨"action_results", .extension (.array (.struct "action_result_def"))⟩] = some cs := by
  rcases h.covered_cases (.extension (.list (VariantDef.covers ht))) with
    ⟨variants, _, _, rfl, h, hvariants⟩ | ⟨-, rfl⟩
  · rcases h.covered_cases (.extension (.list (ActionResultDef.covers ht))) with
      ⟨results, _, _, rfl, h, hresults⟩ | ⟨-, rfl⟩
    · cases h.eq_nil
      exact ⟨some variants, some results, fun _ => rfl,
        fun members hv hr => hvariants members hv (hresults members hr rfl)⟩
    · refine ⟨some variants, none, nofun, fun members hv hr => hvariants members hv ?_⟩
      simp only [fieldsOfJson?, hr, Option.map_none]
      rfl
  · refine ⟨none, none, nofun, ?_⟩
    intro members hv hr
    simp only [fieldsOfJson?, hv, hr, Option.map_none]
    rfl

end Parts

namespace Document

/-- Whether a document is as documents come back from their packed form. -/
structure IsUnpacked (d : Document) : Prop where
  withVariants : d.withVariants = d
  extensions : d.extensions.map DocumentExtension.lowered = d.extensions

theorem withVariants_of_isSome {d : Document} (h : d.actionResults?.isSome → d.variants?.isSome) :
    d.withVariants = d := by
  apply if_neg
  rintro ⟨hresults, hvariants⟩
  rw [Option.isNone_iff_eq_none.mp hvariants] at h
  cases h hresults

theorem covers {t : TypeTable} (ht : t.structs = Standard.abiDefStructs) :
    Covers t (.struct "abi_def") fun d v => toJson d = v ∧ IsUnpacked d := by
  apply Covers.struct (TypeTable.struct?_eq ht rfl)
  intro levels cs h
  obtain ⟨version, _, _, rfl, h, hversion⟩ := h.covered .string nofun
  obtain ⟨aliases, _, _, rfl, h, haliases⟩ := h.covered (.list (AliasDef.covers ht)) nofun
  obtain ⟨structs, _, _, rfl, h, hstructs⟩ := h.covered (.list (StructDef.covers ht)) nofun
  obtain ⟨actions, _, _, rfl, h, hactions⟩ := h.covered (.list (ActionDef.covers ht)) nofun
  obtain ⟨tables, _, _, rfl, h, htables⟩ := h.covered (.list (TableDef.covers ht)) nofun
  obtain ⟨clauses, _, _, rfl, h, hclauses⟩ := h.covered (.list (Clause.covers ht)) nofun
  obtain ⟨errors, _, _, rfl, h, herrors⟩ := h.covered (.list (ErrorMessage.covers ht)) nofun
  obtain ⟨extensions, _, _, ⟨rfl, hlowered⟩, h, hextensions⟩ :=
    h.covered (DocumentExtension.covers_list ht) nofun
  obtain ⟨variants?, results?, hlater, hlast⟩ := covers_later ht h
  refine ⟨⟨version, aliases, structs, actions, tables, clauses, errors, extensions, variants?,
    results?⟩, _, ⟨rfl, withVariants_of_isSome hlater, hlowered⟩, ?_⟩
  refine hversion _ rfl (haliases _ rfl (hstructs _ rfl (hactions _ rfl (htables _ rfl
    (hclauses _ rfl (herrors _ rfl (hextensions _ rfl (hlast _ ?_ ?_))))))))
  · cases variants? <;> cases results? <;> rfl
  · cases variants? <;> cases results? <;> rfl

/-- What bytes are decoded as is read as a document, and that is packed as the wire form of a content
that the bytes spell. -/
theorem pack_unpack
    (h : Standard.abiDefContract.decode config Standard.abiDefType bs = .ok w) :
    ∃ d content, unpack config bs = .ok d ∧
      HasType Standard.abiDefContract.types config.levels (.struct "abi_def") content ∧
      content.toJson = w ∧ content.IsSpelledBy bs ∧ d.pack config = .ok content.bytes := by
  obtain ⟨d, _, content, ⟨rfl, hd⟩, hcontent, htype, rfl, hspelled, hencode⟩ :=
    Contract.exists_written_of_decode Standard.types_abiDef.2.2 Standard.isSteady_abiDef rfl
      (covers Standard.types_abiDef.1) h
  have hread : ofJson? content.toJson = some d := by
    have hrestored := Document.restores Standard.types_abiDef.1 d _ content hcontent
    rwa [hd.extensions] at hrestored
  refine ⟨d, content, ?_, htype, rfl, hspelled, ?_⟩
  · rw [unpack, h]
    simp only [bind, Except.bind, hread]
    rfl
  · rw [pack, hd.withVariants]
    exact hencode

/-- The one way in which a document is not unpacked is that its bytes are not decoded. -/
theorem unpack_eq_error (h : unpack config bs = .error e) :
    Standard.abiDefContract.decode config Standard.abiDefType bs = .error e := by
  cases hdecode : Standard.abiDefContract.decode config Standard.abiDefType bs with
  | error e' =>
    rw [unpack, hdecode] at h
    cases h
    rfl
  | ok w =>
    obtain ⟨d, content, hunpack, -⟩ := pack_unpack hdecode
    cases hunpack.symm.trans h

end Document

namespace Context

theorem deserializeAbi_eq_error (h : deserializeAbi bs c = .error e c') :
    Document.unpack c.config bs = .error e := by
  rw [deserializeAbi, settle_recorded (unpackDocument_apply bs), settle_noting_eq_error] at h
  exact h.1

/-- Bytes that are decoded as a schema document are unpacked as a document, and the document is
packed under the same limits as the wire form of the content that the bytes spell: the same bytes,
except that counts and lengths come out in their shortest form. Nothing else fails than decoding the
bytes. -/
theorem serializeAbi_deserializeAbi (bs : Bytes) (c : Context) :
    (∀ e c', deserializeAbi bs c = .error e c' →
      ∃ fault, e = .decode Standard.abiDefType fault) ∧
    ∀ w, Standard.abiDefContract.decode c.config Standard.abiDefType bs = .ok w →
      ∃ d content, deserializeAbi bs c = .ok d c ∧
        HasType Standard.abiDefContract.types c.config.levels (.struct "abi_def") content ∧
        content.toJson = w ∧ content.IsSpelledBy bs ∧
        (∀ c₂ : Context, c₂.config = c.config → serializeAbi d c₂ = .ok content.bytes c₂) ∧
        (content.bytes = bs ∨ content.bytes.length < bs.length) := by
  constructor
  · intro e c' h
    have hdecode := Document.unpack_eq_error (deserializeAbi_eq_error h)
    exact Contract.decode_eq_error Standard.types_abiDef.2.2 hdecode
  · intro w hdecode
    obtain ⟨d, content, hunpack, htype, hjson, hspelled, hpack⟩ := Document.pack_unpack hdecode
    have hd : deserializeAbi bs c = .ok d c := deserializeAbi_eq_ok.mpr ⟨hunpack, rfl⟩
    refine ⟨d, content, hd, htype, hjson, hspelled, ?_, hspelled.eq_or_shorter⟩
    intro c₂ hconfig
    rw [← hconfig] at hpack
    exact serializeAbi_eq_ok.mpr ⟨hpack, rfl⟩

def longPacked : Bytes := 0x80 :: samplePacked

theorem serializeAbi_deserializeAbi_long :
    deserializeAbi longPacked (.new {}) = .ok sampleDocument.unpacked (.new {}) ∧
    serializeAbi sampleDocument.unpacked (.new {}) = .ok samplePacked (.new {}) ∧
    samplePacked.length < longPacked.length ∧
    ∃ content : Content, content.IsSpelledBy longPacked ∧ content.bytes = samplePacked := by
  have hunpack : Document.unpack {} longPacked = .ok sampleDocument.unpacked :=
    Result.toOption_eq_some.mp (by decide +kernel)
  have hpack : sampleDocument.unpacked.pack {} = .ok samplePacked :=
    Result.toOption_eq_some.mp (by decide +kernel)
  obtain ⟨w, hdecode, -⟩ := Result.bind_eq_ok.mp hunpack
  obtain ⟨d, content, hd, -, -, hspelled, hserialize, -⟩ :=
    (serializeAbi_deserializeAbi longPacked (.new {})).2 w hdecode
  cases hunpack.symm.trans (deserializeAbi_eq_ok.mp hd).1
  have hbytes : content.bytes = samplePacked :=
    Except.ok.inj ((serializeAbi_eq_ok.mp (hserialize _ rfl)).1.symm.trans hpack)
  exact ⟨hd, hbytes ▸ hserialize _ rfl, by decide, content, hspelled, hbytes⟩

end Context
end ChainKit.Abi
