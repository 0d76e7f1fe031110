import ChainKit.Proofs.Abi.Resolution.WellFormed

namespace ChainKit.Abi

/-- A struct with more fields of its own behind the others if it has a given name, else itself. -/
def StructDef.growing (name : String) (extra : List FieldDef) (s : StructDef) : StructDef :=
  if s.name = name then { s with fields := s.fields ++ extra } else s

def StructType.growing (name : String) (extra : List Field) (s : StructType) : StructType :=
  if s.name = name then { s with fields := s.fields ++ extra } else s

namespace StructDef

variable {name : String} {extra : List FieldDef} {s : StructDef}

@[simp] theorem name_growing : (s.growing name extra).name = s.name := by
  unfold growing
  split <;> rfl

@[simp] theorem base_growing : (s.growing name extra).base = s.base := by
  unfold growing
  split <;> rfl

theorem growing_of_ne (h : s.name ≠ name) : s.growing name extra = s := if_neg h

end StructDef

@[simp] theorem StructType.name_growing {name : String} {extra : List Field} {s : StructType} :
    (s.growing name extra).name = s.name := by
  unfold growing
  split <;> rfl

namespace Document
set_option autoImplicit true

/-- A document in which one struct has more fields of its own. -/
def withFields (d : Document) (name : String) (extra : List FieldDef) : Document :=
  { d with structs := d.structs.map (StructDef.growing name extra) }

/-- Whether a struct is no other struct's base. -/
def IsNoBase (d : Document) (name : String) : Prop :=
  ∀ s ∈ d.structs, s.name ≠ name → d.baseName s.base ≠ .ok name

instance (d : Document) (name : String) : Decidable (d.IsNoBase name) :=
  inferInstanceAs (Decidable (∀ s ∈ d.structs, s.name ≠ name → d.baseName s.base ≠ .ok name))

variable {d : Document}

theorem Declares.withFields (h : d.Declares n t) : (d.withFields name extra).Declares n t := by
  cases h with
  | @struct s hs =>
    have hmem := List.mem_map_of_mem (f := StructDef.growing name extra) hs
    have hdeclared := Declares.struct (d := d.withFields name extra) hmem
    rwa [StructDef.name_growing] at hdeclared
  | variant hv => exact .variant hv

theorem Means.withFields (h : d.Means n t) : (d.withFields name extra).Means n t := by
  obtain ⟨k, h⟩ := h
  exact ⟨k, h.mono (fun _ _ h => h.withFields) (List.Subset.refl _)⟩

theorem FieldMeans.withFields (h : d.FieldMeans f g) : (d.withFields name extra).FieldMeans f g :=
  ⟨h.1, h.2.withFields⟩

theorem MemberMeans.withFields (h : d.MemberMeans m member) :
    (d.withFields name extra).MemberMeans m member := ⟨h.1, h.2.withFields⟩

theorem VariantMeans.withFields (h : d.VariantMeans v vt) :
    (d.withFields name extra).VariantMeans v vt :=
  ⟨h.1, h.2.mono fun _ _ hm => hm.withFields⟩

theorem IsBaseOf.withFields (h : d.IsBaseOf b s) : (d.withFields name extra).IsBaseOf
    (b.growing name extra) (s.growing name extra) := by
  obtain ⟨hmem, hbase, n, hleads⟩ := h
  rw [IsBaseOf, StructDef.base_growing, StructDef.name_growing]
  exact ⟨List.mem_map_of_mem hmem, hbase, n, hleads.of_aliases rfl⟩

theorem Lineage.withFields (h : d.Lineage s chain) : (d.withFields name extra).Lineage
    (s.growing name extra) (chain.map (StructDef.growing name extra)) := by
  induction h with
  | root hs =>
    apply Lineage.root
    rwa [StructDef.base_growing]
  | base hbase _ ih =>
    rw [List.map_append, List.map_singleton]
    exact .base hbase.withFields ih

theorem Lineage.ne_of_isNoBase (hd : d.HasProperNames) (h : d.Lineage s chain)
    (hs : s ∈ d.structs) (hbase : d.IsNoBase name) (hnodup : (chain.map StructDef.name).Nodup)
    (hfront : chain = front ++ [s]) : ∀ b ∈ front, b.name ≠ name := by
  induction h generalizing front with
  | @root s =>
    have hfront : [] ++ [s] = front ++ [s] := hfront
    cases List.append_cancel_right hfront
    nofun
  | @base b s chain hb hchain ih =>
    cases List.append_cancel_right hfront
    obtain ⟨bases, rfl⟩ := hchain.eq_append
    obtain ⟨hnodup, hne⟩ := nodup_names_append.mp hnodup
    have hbases := ih hb.1 hnodup rfl
    intro c hc
    rcases List.mem_append.mp hc with hc | hc
    · exact hbases c hc
    · cases List.mem_singleton.mp hc
      intro hname
      have hsname : s.name ≠ name := by
        rw [← hname]
        exact (hne b (List.mem_append_right _ List.mem_cons_self)).symm
      apply hbase s hs hsname
      rw [← hname]
      exact (baseName_eq_ok hd).mpr hb.2.2

theorem map_growing_of_ne {chain : List StructDef} (h : ∀ s ∈ chain, s.name ≠ name) :
    chain.map (StructDef.growing name extra) = chain := by
  rw [List.map_congr_left fun s hs => StructDef.growing_of_ne (h s hs), List.map_id']

theorem StructMeans.withFields (hd : d.HasProperNames) (hs : s ∈ d.structs)
    (hbase : d.IsNoBase name)
    (hextra : Result.Each (d.withFields name extra).FieldMeans extra gs)
    (h : d.StructMeans s st) :
    (d.withFields name extra).StructMeans (s.growing name extra) (st.growing name gs) := by
  obtain ⟨hname, chain, hchain, hnodup, hfields⟩ := h
  have hnames : (chain.map (StructDef.growing name extra)).map StructDef.name =
      chain.map StructDef.name := by
    rw [List.map_map]
    exact List.map_congr_left fun _ _ => StructDef.name_growing
  refine ⟨?_, _, hchain.withFields, hnames ▸ hnodup, ?_⟩
  · rw [StructType.name_growing, StructDef.name_growing, hname]
  · obtain ⟨front, rfl⟩ := hchain.eq_append
    have hfront := hchain.ne_of_isNoBase hd hs hbase hnodup rfl
    have hsame : Result.Each (d.withFields name extra).FieldMeans
        ((front ++ [s]).flatMap StructDef.fields) st.fields :=
      hfields.mono fun _ _ h => h.withFields
    rw [List.map_append, map_growing_of_ne hfront, List.map_singleton]
    by_cases he : s.name = name
    · rw [StructDef.growing, if_pos he, StructType.growing, if_pos (hname.trans he)]
      have hall := hsame.append hextra
      simp only [List.flatMap_append, List.flatMap_singleton, List.append_assoc] at hall ⊢
      exact hall
    · rw [StructDef.growing, if_neg he, StructType.growing, if_neg (hname ▸ he)]
      exact hsame

end Document

namespace TypeTable
set_option autoImplicit true

/-- Whether a table is another one with more fields in one struct. -/
structure IsGrown (t t' : TypeTable) (name : String) (extra : List Field) : Prop where
  structs : t'.structs = t.structs.map (StructType.growing name extra)
  variants : t'.variants = t.variants

variable {t t' : TypeTable}

theorem IsOf.isGrown {d : Document} (ht : t.IsOf d) (ht' : t'.IsOf (d.withFields name extra))
    (hbase : d.IsNoBase name)
    (hextra : Result.Each (d.withFields name extra).FieldMeans extra gs) :
    t.IsGrown t' name gs := by
  constructor
  · have hstructs : Result.Each (d.withFields name extra).StructMeans
        (d.withFields name extra).structs (t.structs.map (StructType.growing name gs)) := by
      apply Result.Each.images (R := fun s st => s ∈ d.structs ∧ d.StructMeans s st)
      · intro s st h
        exact h.2.withFields ht.names h.1 hbase hextra
      · apply ht.structs.mono_mem
        intro s hs st hst
        exact ⟨hs, hst⟩
    exact ht'.structs.unique (fun _ _ _ h h' => h.unique ht'.names h') hstructs
  · have hvariants : Result.Each (d.withFields name extra).VariantMeans d.variants t.variants :=
      ht.variants.mono fun _ _ h => h.withFields
    exact ht'.variants.unique (fun _ _ _ h h' => h.unique ht'.names h') hvariants

theorem name_of_struct? (h : t.struct? n = some s) : s.name = n := by
  have hbeq := List.find?_some (p := fun s : StructType => s.name == n) h
  exact eq_of_beq hbeq

namespace IsGrown

theorem struct? (h : t.IsGrown t' name extra) (n : String) :
    t'.struct? n = (t.struct? n).map (StructType.growing name extra) := by
  have hnames : (fun s : StructType => s.name == n) ∘ StructType.growing name extra =
      fun s => s.name == n := by
    funext s
    rw [Function.comp, StructType.name_growing]
  rw [TypeTable.struct?, TypeTable.struct?, h.structs, List.find?_map, hnames]

theorem struct?_of_ne (h : t.IsGrown t' name extra) (hne : n ≠ name) :
    t'.struct? n = t.struct? n := by
  rw [h.struct?]
  cases hs : t.struct? n with
  | none => rfl
  | some s =>
    rw [Option.map_some, StructType.growing, if_neg (name_of_struct? hs ▸ hne)]

theorem struct?_self (h : t.IsGrown t' name extra) (hs : t.struct? name = some s) :
    t'.struct? name = some { s with fields := s.fields ++ extra } := by
  rw [h.struct?, hs, Option.map_some, StructType.growing, if_pos (name_of_struct? hs)]

theorem variant? (h : t.IsGrown t' name extra) (n : String) : t'.variant? n = t.variant? n := by
  rw [TypeTable.variant?, TypeTable.variant?, h.variants]

end IsGrown
end TypeTable
end ChainKit.Abi
