import ChainKit.Abi.TypeTable
import ChainKit.Proofs.Abi.Resolution.Finds
import ChainKit.Proofs.Abi.Resolution.Lineage

namespace ChainKit.Abi

namespace Document
set_option autoImplicit true

/-- What a declared field becomes. -/
def FieldMeans (d : Document) (f : FieldDef) (g : Field) : Prop :=
  g.name = f.name ∧ d.Means f.type g.type

def StructMeans (d : Document) (s : StructDef) (st : StructType) : Prop :=
  st.name = s.name ∧ ∃ chain, d.Lineage s chain ∧ (chain.map StructDef.name).Nodup ∧
    Result.Each d.FieldMeans (chain.flatMap StructDef.fields) st.fields

def MemberMeans (d : Document) (m : String) (member : Member) : Prop :=
  member.name = m ∧ d.Means m member.type

def VariantMeans (d : Document) (v : VariantDef) (vt : VariantType) : Prop :=
  vt.name = v.name ∧ Result.Each d.MemberMeans v.members vt.members

variable {d : Document}

theorem flatten_eq_ok (hd : d.HasProperNames) : d.flatten s = .ok fields ↔
    ∃ chain, (d.Lineage s chain ∧ (chain.map StructDef.name).Nodup) ∧
      chain.flatMap StructDef.fields = fields := by
  rw [flatten, Result.map_eq_ok]
  constructor
  · rintro ⟨chain, h, he⟩
    exact ⟨chain, (lineage_eq_ok hd).mp h, he⟩
  · rintro ⟨chain, h, he⟩
    exact ⟨chain, (lineage_eq_ok hd).mpr h, he⟩

theorem FieldMeans.unique (hd : d.HasProperNames) (h : d.FieldMeans f g) (h' : d.FieldMeans f g') :
    g = g' := by
  obtain ⟨name, type⟩ := g
  obtain ⟨name', type'⟩ := g'
  obtain ⟨hname, hmeans⟩ := h
  obtain ⟨hname', hmeans'⟩ := h'
  cases hname.trans hname'.symm
  cases hmeans.unique hd hmeans'
  rfl

theorem StructMeans.unique (hd : d.HasProperNames) (h : d.StructMeans s st)
    (h' : d.StructMeans s st') : st = st' := by
  obtain ⟨name, fields⟩ := st
  obtain ⟨name', fields'⟩ := st'
  obtain ⟨hname, chain, hchain, hnodup, hfields⟩ := h
  obtain ⟨hname', chain', hchain', hnodup', hfields'⟩ := h'
  have hlineage := (lineage_eq_ok hd).mpr ⟨hchain, hnodup⟩
  cases hlineage.symm.trans ((lineage_eq_ok hd).mpr ⟨hchain', hnodup'⟩)
  cases hname.trans hname'.symm
  cases hfields.unique (fun _ _ _ h h' => h.unique hd h') hfields'
  rfl

theorem MemberMeans.unique (hd : d.HasProperNames) (h : d.MemberMeans m member)
    (h' : d.MemberMeans m member') : member = member' := by
  obtain ⟨name, type⟩ := member
  obtain ⟨name', type'⟩ := member'
  obtain ⟨hname, hmeans⟩ := h
  obtain ⟨hname', hmeans'⟩ := h'
  cases hname.trans hname'.symm
  cases hmeans.unique hd hmeans'
  rfl

theorem VariantMeans.unique (hd : d.HasProperNames) (h : d.VariantMeans v vt)
    (h' : d.VariantMeans v vt') : vt = vt' := by
  obtain ⟨name, members⟩ := vt
  obtain ⟨name', members'⟩ := vt'
  obtain ⟨hname, hmembers⟩ := h
  obtain ⟨hname', hmembers'⟩ := h'
  cases hname.trans hname'.symm
  cases hmembers.unique (fun _ _ _ h h' => h.unique hd h') hmembers'
  rfl

theorem finds_fieldType (hd : d.HasProperNames) :
    d.Finds [f.type] (d.fieldType s f) (d.FieldMeans f) := by
  refine ((finds_resolveReference hd).bind fun t _ => .pure _).mono ?_ (List.Subset.refl _)
  intro g
  constructor
  · rintro ⟨t, ht, rfl⟩
    exact ⟨rfl, ht⟩
  · rintro ⟨hname, ht⟩
    exact ⟨g.type, ht, hname ▸ rfl⟩

theorem Lineage.fields_subset (h : d.Lineage s chain) :
    s.fields ⊆ chain.flatMap StructDef.fields := by
  intro f hf
  obtain ⟨front, rfl⟩ := h.eq_append
  exact List.mem_flatMap.mpr ⟨s, List.mem_append_right _ List.mem_cons_self, hf⟩

theorem finds_structType (hd : d.HasProperNames) :
    d.Finds (s.fields.map FieldDef.type) (d.structType s) (d.StructMeans s) := by
  have hfields : ∀ fields, d.flatten s = .ok fields → d.Finds (s.fields.map FieldDef.type)
      (fields.mapM (d.fieldType s)) (Result.Each d.FieldMeans fields) := by
    intro fields hflat
    obtain ⟨chain, ⟨hchain, -⟩, rfl⟩ := (flatten_eq_ok hd).mp hflat
    refine (Finds.mapM fun f _ => finds_fieldType hd).mono (fun _ => Iff.rfl) ?_
    intro type htype
    obtain ⟨f, hf, rfl⟩ := List.mem_map.mp htype
    exact List.mem_flatMap.mpr ⟨f, hchain.fields_subset hf, List.mem_singleton.mpr rfl⟩
  refine ((Finds.lift _).bind fun fields h =>
    (hfields fields h).bind fun gs _ => .pure _).mono ?_ ?_
  · intro st
    constructor
    · rintro ⟨fields, hflat, gs, hgs, rfl⟩
      obtain ⟨chain, ⟨hchain, hnodup⟩, rfl⟩ := (flatten_eq_ok hd).mp hflat
      exact ⟨rfl, chain, hchain, hnodup, hgs⟩
    · rintro ⟨hname, chain, hchain, hnodup, hgs⟩
      have hflat := (flatten_eq_ok hd).mpr ⟨chain, ⟨hchain, hnodup⟩, rfl⟩
      exact ⟨_, hflat, st.fields, hgs, hname ▸ rfl⟩
  · rw [List.nil_append, List.append_nil]
    exact List.Subset.refl _

theorem finds_memberType (hd : d.HasProperNames) :
    d.Finds [m] (d.memberType v m) (d.MemberMeans m) := by
  refine ((finds_resolveReference hd).bind fun t _ => .pure _).mono ?_ (List.Subset.refl _)
  intro member
  constructor
  · rintro ⟨t, ht, rfl⟩
    exact ⟨rfl, ht⟩
  · rintro ⟨hname, ht⟩
    exact ⟨member.type, ht, hname ▸ rfl⟩

theorem finds_variantType (hd : d.HasProperNames) :
    d.Finds v.members (d.variantType v) (d.VariantMeans v) := by
  refine ((Finds.mapM fun m _ => finds_memberType hd).bind fun ms _ => .pure _).mono ?_ ?_
  · intro vt
    constructor
    · rintro ⟨ms, hms, rfl⟩
      exact ⟨rfl, hms⟩
    · rintro ⟨hname, hms⟩
      exact ⟨vt.members, hms, hname ▸ rfl⟩
  · intro m hm
    exact List.mem_append_left _ (List.mem_flatMap.mpr ⟨m, hm, List.mem_singleton.mpr rfl⟩)

/-- The names that a document refers to. -/
def references (d : Document) : List String :=
  d.structs.flatMap (fun s => s.fields.map FieldDef.type) ++
    d.variants.flatMap VariantDef.members ++ d.aliases.map AliasDef.name ++
    d.actions.map ActionDef.type ++ d.tables.map TableDef.type ++
    d.actionResults.map ActionResultDef.type

theorem finds_check (hd : d.HasProperNames) (referrer : Referrer) :
    d.Finds [name] (d.resolveReference referrer name >>= fun _ => pure ())
      fun _ => ∃ t, d.Means name t := by
  refine ((finds_resolveReference hd).bind fun _ _ => .pure ()).mono ?_ (List.Subset.refl _)
  exact fun _ => ⟨fun ⟨t, ht, _⟩ => ⟨t, ht⟩, fun ⟨t, ht⟩ => ⟨t, ht, rfl⟩⟩

theorem finds_checkEntries (hd : d.HasProperNames) :
    d.Finds (entries.map Prod.snd) (d.checkEntries referrer duplicate seen entries) fun _ =>
      (∀ e ∈ entries, e.1 ∉ seen ∧ ∃ t, d.Means e.2 t) ∧ (entries.map Prod.fst).Nodup := by
  induction entries generalizing seen with
  | nil =>
    refine (Finds.pure ()).mono ?_ (List.Subset.refl _)
    exact fun _ => ⟨fun _ => ⟨nofun, List.nodup_nil⟩, fun _ => rfl⟩
  | cons e entries ih =>
    obtain ⟨name, type⟩ := e
    rw [checkEntries]
    by_cases hseen : name ∈ seen
    · rw [if_pos (List.contains_iff_mem.mpr hseen)]
      refine (Finds.throw _).mono ?_ (List.Subset.refl _)
      exact fun _ => ⟨False.elim, fun h => (h.1 _ List.mem_cons_self).1 hseen⟩
    · rw [if_neg (fun h => hseen (List.contains_iff_mem.mp h))]
      refine ((finds_resolveReference hd).bind fun t _ => ih).mono ?_ (List.Subset.refl _)
      intro _
      rw [List.forall_mem_cons, List.map_cons, List.nodup_cons]
      constructor
      · rintro ⟨t, ht, hrest, hnodup⟩
        refine ⟨⟨⟨hseen, t, ht⟩, ?_⟩, ?_, hnodup⟩
        · exact fun e he => ⟨fun hs => (hrest e he).1 (List.mem_cons_of_mem _ hs), (hrest e he).2⟩
        · intro hmem
          obtain ⟨e, he, hname⟩ := List.mem_map.mp hmem
          exact (hrest e he).1 (hname ▸ List.mem_cons_self)
      · rintro ⟨⟨⟨-, t, ht⟩, hrest⟩, hnotin, hnodup⟩
        refine ⟨t, ht, ?_, hnodup⟩
        intro e he
        refine ⟨?_, (hrest e he).2⟩
        intro hs
        rcases List.mem_cons.mp hs with hname | hs
        · have hmem : e.1 ∈ entries.map Prod.fst := List.mem_map_of_mem he
          exact hnotin (hname ▸ hmem)
        · exact (hrest e he).1 hs

theorem finds_entries {xs : List α} {key : α → Name} {type : α → String} (hd : d.HasProperNames) :
    d.Finds (xs.map type)
      (d.checkEntries referrer duplicate [] (xs.map fun x => (key x, type x)))
      fun _ => (∀ x ∈ xs, ∃ t, d.Means (type x) t) ∧ (xs.map key).Nodup := by
  refine (finds_checkEntries hd).mono ?_ ?_
  · intro _
    rw [List.map_map, List.forall_mem_map]
    exact and_congr_left' ⟨fun h x hx => (h x hx).2, fun h x hx => ⟨List.not_mem_nil, h x hx⟩⟩
  · rw [List.map_map]
    exact List.Subset.refl _

/-- The conditions on the references behind the structs and variants. -/
structure ChecksOut (d : Document) : Prop where
  aliases : ∀ a ∈ d.aliases, ∃ t, d.Means a.name t
  actions : (∀ a ∈ d.actions, ∃ t, d.Means a.type t) ∧ (d.actions.map ActionDef.name).Nodup
  tables : (∀ a ∈ d.tables, ∃ t, d.Means a.type t) ∧ (d.tables.map TableDef.name).Nodup
  results : ∀ r ∈ d.actionResults, ∃ t, d.Means r.type t

theorem finds_resolveAll (hd : d.HasProperNames) :
    d.Finds d.references d.resolveAll fun parts => Result.Each d.StructMeans d.structs parts.1 ∧
      Result.Each d.VariantMeans d.variants parts.2 ∧ d.ChecksOut := by
  refine ((Finds.mapM fun s _ => finds_structType hd).bind fun structs _ =>
    (Finds.mapM fun v _ => finds_variantType hd).bind fun variants _ =>
    (Finds.forM fun a _ => finds_check hd (.alias a.name)).bind fun _ _ =>
    (finds_entries hd).bind fun _ _ => (finds_entries hd).bind fun _ _ =>
    (Finds.forM fun r _ => finds_check hd (.actionResult r.name)).bind fun _ _ =>
      .pure (structs, variants)).mono ?_ ?_
  · intro parts
    constructor
    · rintro ⟨structs, hs, variants, hv, _, ha, _, hactions, _, htables, _, hresults, rfl⟩
      exact ⟨hs, hv, ha, hactions, htables, hresults⟩
    · rintro ⟨hs, hv, ha, hactions, htables, hresults⟩
      exact ⟨_, hs, _, hv, (), ha, (), hactions, (), htables, (), hresults, rfl⟩
  · rw [references]
    simp only [List.map_eq_flatMap, List.append_assoc, List.append_nil]
    exact List.Subset.refl _

end Document
end ChainKit.Abi
