import ChainKit.Proofs.Abi.Growth

namespace ChainKit.Abi

namespace Document
set_option autoImplicit true

variable {d : Document}

/-- A name that leads to a declared struct or variant means it. -/
theorem Leads.means (h : d.Leads n name declared) (ht : d.Declares declared type) :
    d.Means name type := by
  induction h with
  | here => exact ⟨0, .declared ht⟩
  | via ha _ ih =>
    obtain ⟨k, hk⟩ := ih ht
    exact ⟨k + 1, .via ha hk (TypeTable.isExtension_of_declares ht)⟩

theorem Leads.mem_declaredNames (h : d.Leads n name declared) (ht : d.Declares declared type) :
    name ∈ d.declaredNames := by
  cases h with
  | here => exact ht.mem
  | via ha => exact Document.mem_declaredNames.mpr (.inl ⟨_, ha, rfl⟩)

theorem IsBaseOf.unique (hd : d.HasProperNames) (h : d.IsBaseOf b s) (h' : d.IsBaseOf b' s) :
    b' = b := by
  obtain ⟨hmem, -, n, hleads⟩ := h
  obtain ⟨hmem', -, n', hleads'⟩ := h'
  have hstruct := hd.struct?_of_mem hmem'
  rw [(hleads'.unique hd hleads).2, hd.struct?_of_mem hmem] at hstruct
  exact (Option.some.inj hstruct).symm

theorem StructMeans.of_base (hbase : s.base ≠ "") (h : d.StructMeans s st) :
    ∃ b bt own, d.IsBaseOf b s ∧ d.StructMeans b bt ∧ st = ⟨s.name, bt.fields ++ own⟩ ∧
      Result.Each d.FieldMeans s.fields own := by
  obtain ⟨name, fields⟩ := st
  obtain ⟨hname, chain, hchain, hnodup, hfields⟩ := h
  cases hname
  cases hchain with
  | root hroot => exact absurd hroot hbase
  | @base b _ chain hb hchain =>
    rw [List.flatMap_append, List.flatMap_singleton] at hfields
    obtain ⟨inherited, own, rfl, hinherited, hown⟩ := hfields.split
    have hmeans : d.StructMeans b ⟨b.name, inherited⟩ :=
      ⟨rfl, chain, hchain, (nodup_names_append.mp hnodup).1, hinherited⟩
    exact ⟨b, _, own, hb, hmeans, rfl, hown⟩

end Document

namespace TypeTable
set_option autoImplicit true

/-- Whether the fields of a struct are those of another followed by its own. -/
def Extends (t : TypeTable) (s b : StructDef) : Prop :=
  ∃ base own, t.struct? b.name = some base ∧
    t.struct? s.name = some ⟨s.name, base.fields ++ own⟩ ∧
    Result.Each (fun f g => g.name = f.name ∧ t.lookup? f.type = some g.type) s.fields own

variable {d : Document} {t : TypeTable}

theorem IsOf.exists_base (ht : t.IsOf d) (hs : s ∈ d.structs) (hbase : s.base ≠ "") :
    ∃ b, d.IsBaseOf b s ∧ t.Extends s b := by
  obtain ⟨st, hst, hmeans⟩ := ht.exists_struct? hs
  obtain ⟨b, bt, own, hb, hbt, rfl, hown⟩ := hmeans.of_base hbase
  obtain ⟨bt', hstruct, hbt'⟩ := ht.exists_struct? hb.1
  cases hbt.unique ht.names hbt'
  refine ⟨b, hb, bt, own, hstruct, hst, hown.mono_mem fun f hf g hg => ⟨hg.1, ?_⟩⟩
  exact ht.lookup?_of_means (mem_references_of_field hs hf) hg.2

theorem IsOf.lookup?_base (ht : t.IsOf d) (hb : d.IsBaseOf b s) :
    t.lookup? s.base = some (.struct b.name) := by
  obtain ⟨hmem, -, n, hleads⟩ := hb
  have hdeclared : d.Declares b.name (.struct b.name) := .struct hmem
  obtain ⟨type, hmeans, hlookup⟩ :=
    ht.lookup? (List.mem_append_left _ (hleads.mem_declaredNames hdeclared))
  cases hmeans.unique ht.names (hleads.means hdeclared)
  exact hlookup

end TypeTable

namespace Encode
set_option autoImplicit true

/-- Fields in front of others are encoded alone, to the first of the bytes. -/
theorem fields_front {value : Ty → Encoder} (h : fields value members absent (fs ++ gs) = .ok bs) :
    ∃ front, fields value members absent fs = .ok front ∧ front <+: bs := by
  induction fs generalizing absent bs with
  | nil => exact ⟨[], rfl, List.nil_prefix⟩
  | cons f fs ih =>
    obtain ⟨name, type⟩ := f
    rw [List.cons_append] at h
    cases hm : Json.member? members name with
    | some v =>
      cases absent with
      | none =>
        simp only [fields, hm] at h ⊢
        obtain ⟨first, hfirst, h⟩ := Result.bind_eq_ok.mp h
        obtain ⟨rest, hrest, h⟩ := Result.bind_eq_ok.mp h
        cases h
        obtain ⟨front, hfront, hpre⟩ := ih hrest
        rw [hfirst, hfront]
        exact ⟨first ++ front, rfl, (List.prefix_append_right_inj first).mpr hpre⟩
      | some e =>
        simp only [fields, hm] at h
        cases h
    | none =>
      cases type with
      | extension inner =>
        simp only [fields, hm] at h ⊢
        exact ih h
      | optional inner =>
        cases absent with
        | none =>
          simp only [fields, hm] at h ⊢
          obtain ⟨rest, hrest, h⟩ := Result.bind_eq_ok.mp h
          cases h
          obtain ⟨front, hfront, hpre⟩ := ih hrest
          rw [hfront]
          exact ⟨0 :: front, rfl, (List.prefix_cons_inj 0).mpr hpre⟩
        | some e =>
          simp only [fields, hm] at h
          cases h
      | _ => cases absent <;> simp only [fields, hm] at h <;> cases h

theorem value_of_extends {t : TypeTable} (h : t.Extends s b)
    (hencode : value t levels (.struct s.name) v = .ok bs) :
    ∃ front, value t levels (.struct b.name) v = .ok front ∧ front <+: bs := by
  obtain ⟨base, own, hb, hs, -⟩ := h
  cases levels with
  | zero => cases hencode
  | succ levels =>
    simp only [value, hs, hb, Option.getD_some] at hencode ⊢
    cases v with
    | obj members => exact fields_front hencode
    | _ => cases hencode

end Encode

namespace Contract
set_option autoImplicit true

variable {d : Document} {t : TypeTable}

/-- A JSON value that is encoded as a struct is encoded as a struct that it extends. -/
theorem encode_of_extends (ht : t.IsOf d) (hs : s ∈ d.structs) (hb : b ∈ d.structs)
    (hextends : t.Extends s b) (hencode : (Contract.mk d t).encode config s.name v = .ok bs) :
    ∃ front, (Contract.mk d t).encode config b.name v = .ok front ∧ front <+: bs := by
  have hviews := view_eq_ok (c := .mk d t) |>.mpr (ht.view_struct hs)
  have hviewb := view_eq_ok (c := .mk d t) |>.mpr (ht.view_struct hb)
  rw [encode, hviews] at hencode
  rw [encode, hviewb]
  obtain ⟨front, hfront, hpre⟩ :=
    Encode.value_of_extends hextends (Result.mapError_eq_ok.mp hencode)
  exact ⟨front, Result.mapError_eq_ok.mpr hfront, hpre⟩

/-- The base of a struct is one struct, which the name of the base means. In the table, the fields
of the struct are those of its base followed by its own, and a JSON value that is encoded as the
struct is encoded as the base, to the first of the bytes. -/
theorem encode_behind_base (hbuild : TypeTable.build d = .ok t) (hs : s ∈ d.structs)
    (hbase : s.base ≠ "") :
    ∃ b, d.IsBaseOf b s ∧ (∀ b', d.IsBaseOf b' s → b' = b) ∧
      t.lookup? s.base = some (.struct b.name) ∧ t.Extends s b ∧
      ∀ config v bs, (Contract.mk d t).encode config s.name v = .ok bs →
        ∃ front, (Contract.mk d t).encode config b.name v = .ok front ∧ front <+: bs := by
  have ht := TypeTable.isOf_of_build hbuild
  obtain ⟨b, hb, hextends⟩ := ht.exists_base hs hbase
  refine ⟨b, hb, fun b' hb' => hb.unique ht.names hb', ht.lookup?_base hb, hextends, ?_⟩
  exact fun config v bs hencode => encode_of_extends ht hs hb.1 hextends hencode

def journalDocument : Document :=
  { aliases := [⟨"latest", "entry_type"⟩, ⟨"entry_type", "entry"⟩]
    structs := [⟨"transfer", "latest", [⟨"memo", "string"⟩, ⟨"fee", "uint8$"⟩]⟩,
      ⟨"entry", "stamped", [⟨"ids", "uint8[]"⟩]⟩, ⟨"stamped", "", [⟨"at", "uint16"⟩]⟩] }

def transfer : Json :=
  .obj [("memo", .str "a"), ("at", .ofNat 258), ("ids", .arr [.ofNat 7, .ofNat 9])]

theorem encode_behind_base_transfer :
    ∃ t, TypeTable.build journalDocument = .ok t ∧
      t.lookup? "latest" = some (.struct "entry") ∧
      (Contract.mk journalDocument t).encode {} "transfer" transfer =
        .ok [2, 1, 2, 7, 9, 1, 97] ∧
      ∃ front, (Contract.mk journalDocument t).encode {} "entry" transfer = .ok front ∧
        front <+: [2, 1, 2, 7, 9, 1, 97] := by
  have hencode : ((TypeTable.build journalDocument).toOption.bind fun t =>
      ((Contract.mk journalDocument t).encode {} "transfer" transfer).toOption) =
    some [2, 1, 2, 7, 9, 1, 97] := by decide +kernel
  obtain ⟨t, ht, hencode⟩ := Option.bind_eq_some_iff.mp hencode
  have hbuild := Result.toOption_eq_some.mp ht
  have hencode := Result.toOption_eq_some.mp hencode
  obtain ⟨b, ⟨hmem, -, -⟩, hone, hlookup, -, hbehind⟩ :=
    encode_behind_base hbuild (.head _) (by decide)
  have hleads : ∃ n, journalDocument.Leads n "latest" "entry" :=
    (Document.baseName_eq_ok (TypeTable.isOf_of_build hbuild).names).mp rfl
  have hentry : journalDocument.IsBaseOf ⟨"entry", "stamped", [⟨"ids", "uint8[]"⟩]⟩
      ⟨"transfer", "latest", [⟨"memo", "string"⟩, ⟨"fee", "uint8$"⟩]⟩ :=
    ⟨.tail _ (.head _), by decide, hleads⟩
  cases hone _ hentry
  exact ⟨t, hbuild, hlookup, hencode, hbehind _ _ _ hencode⟩

/-- A JSON value that is encoded as a struct is encoded as each struct that it is built on, however
far, to the first of the bytes. -/
theorem encode_behind_lineage (ht : t.IsOf d) (hs : s ∈ d.structs) (hlineage : d.Lineage s chain)
    (hb : b ∈ chain) (hencode : (Contract.mk d t).encode config s.name v = .ok bs) :
    ∃ front, (Contract.mk d t).encode config b.name v = .ok front ∧ front <+: bs := by
  induction hlineage generalizing bs with
  | root =>
    cases List.mem_singleton.mp hb
    exact ⟨bs, hencode, List.prefix_rfl⟩
  | @base base s chain hbase _ ih =>
    rcases List.mem_append.mp hb with hb | hb
    · obtain ⟨base', hbase', hextends⟩ := ht.exists_base hs hbase.2.1
      cases hbase.unique ht.names hbase'
      obtain ⟨front, hfront, hpre⟩ := encode_of_extends ht hs hbase.1 hextends hencode
      obtain ⟨first, hfirst, hpre'⟩ := ih hbase.1 hb hfront
      exact ⟨first, hfirst, hpre'.trans hpre⟩
    · cases List.mem_singleton.mp hb
      exact ⟨bs, hencode, List.prefix_rfl⟩

end Contract
end ChainKit.Abi
