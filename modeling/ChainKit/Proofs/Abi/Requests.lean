import ChainKit.Proofs.Abi.Declared

namespace ChainKit.Abi

namespace Document
set_option autoImplicit true

/-- Whether two documents have the same aliases, structs and variants. -/
structure DeclaresLike (d d' : Document) : Prop where
  aliases : d'.aliases = d.aliases
  structs : d'.structs = d.structs
  variants : d'.variants = d.variants

namespace DeclaresLike

variable {d d' : Document}

theorem symm (h : d.DeclaresLike d') : d'.DeclaresLike d :=
  ⟨h.aliases.symm, h.structs.symm, h.variants.symm⟩

theorem declares (h : d.DeclaresLike d') (ht : d.Declares name type) :
    d'.Declares name type := by
  cases ht with
  | struct hs => exact .struct (h.structs ▸ hs)
  | variant hv => exact .variant (h.variants ▸ hv)

theorem means (h : d.DeclaresLike d') (ht : d.Means name type) : d'.Means name type := by
  obtain ⟨n, hn⟩ := ht
  exact ⟨n, hn.mono (fun _ _ => h.declares) (h.aliases ▸ List.Subset.refl _)⟩

theorem means_iff (h : d.DeclaresLike d') : d'.Means name type ↔ d.Means name type :=
  ⟨h.symm.means, h.means⟩

theorem lineage (h : d.DeclaresLike d') (hs : d.Lineage s chain) : d'.Lineage s chain := by
  induction hs with
  | root hbase => exact .root hbase
  | base hb _ ih =>
    obtain ⟨hmem, hbase, n, hleads⟩ := hb
    exact .base ⟨h.structs ▸ hmem, hbase, n, hleads.of_aliases h.aliases⟩ ih

theorem structMeans (h : d.DeclaresLike d') (hs : d.StructMeans s st) : d'.StructMeans s st := by
  obtain ⟨hname, chain, hchain, hnodup, hfields⟩ := hs
  exact ⟨hname, chain, h.lineage hchain, hnodup, hfields.mono fun _ _ hf => ⟨hf.1, h.means hf.2⟩⟩

theorem variantMeans (h : d.DeclaresLike d') (hv : d.VariantMeans v vt) :
    d'.VariantMeans v vt :=
  ⟨hv.1, hv.2.mono fun _ _ hm => ⟨hm.1, h.means hm.2⟩⟩

theorem hasProperNames (h : d.DeclaresLike d') (hd : d.HasProperNames) : d'.HasProperNames := by
  have hnames : d'.declaredNames = d.declaredNames := by
    rw [declaredNames, declaredNames, h.aliases, h.structs, h.variants]
  exact ⟨hnames ▸ hd.nonempty, hnames ▸ hd.not_builtin, hnames ▸ hd.no_suffix,
    hnames ▸ hd.distinct⟩

theorem lineages (h : d.DeclaresLike d') (hd : d.IsWellFormed) :
    ∀ s ∈ d'.structs, ∃ chain, d'.Lineage s chain ∧ (chain.map StructDef.name).Nodup ∧
      ∀ b ∈ chain, ∀ f ∈ b.fields, ∃ type, d'.Means f.type type := by
  intro s hs
  obtain ⟨chain, hchain, hnodup, hfields⟩ := hd.lineages s (h.structs ▸ hs)
  refine ⟨chain, h.lineage hchain, hnodup, ?_⟩
  intro b hb f hf
  obtain ⟨type, htype⟩ := hfields b hb f hf
  exact ⟨type, h.means htype⟩

end DeclaresLike

/-- A document with one more table at a place among the others. -/
def withTable (d : Document) (place : Nat) (e : TableDef) : Document :=
  { d with tables := d.tables.take place ++ e :: d.tables.drop place }

variable {d : Document}

theorem declaresLike_withTable : d.DeclaresLike (d.withTable place e) := ⟨rfl, rfl, rfl⟩

theorem perm_withTable : (d.withTable place e).tables.Perm (e :: d.tables) := by
  have hperm : (d.withTable place e).tables.Perm
      (e :: (d.tables.take place ++ d.tables.drop place)) := List.perm_middle
  rwa [List.take_append_drop] at hperm

theorem mem_withTable : a ∈ (d.withTable place e).tables ↔ a = e ∨ a ∈ d.tables :=
  perm_withTable.mem_iff.trans List.mem_cons

theorem checksOut_withTable (hnew : e.name ∉ d.tables.map TableDef.name) :
    (d.withTable place e).ChecksOut ↔ d.ChecksOut ∧ ∃ type, d.Means e.type type := by
  have hlike : d.DeclaresLike (d.withTable place e) := declaresLike_withTable
  have hnames : ((d.withTable place e).tables.map TableDef.name).Nodup ↔
      (d.tables.map TableDef.name).Nodup := by
    rw [(perm_withTable.map TableDef.name).nodup_iff, List.map_cons, List.nodup_cons]
    exact and_iff_right hnew
  have htypes : (∀ a ∈ (d.withTable place e).tables, ∃ type, d.Means a.type type) ↔
      (∃ type, d.Means e.type type) ∧ ∀ a ∈ d.tables, ∃ type, d.Means a.type type := by
    simp only [mem_withTable, forall_eq_or_imp]
  constructor
  · rintro ⟨haliases, hactions, htables, hresults⟩
    simp only [hlike.means_iff] at haliases hactions htables hresults
    obtain ⟨hrow, htables'⟩ := htypes.mp htables.1
    exact ⟨⟨haliases, hactions, ⟨htables', hnames.mp htables.2⟩, hresults⟩, hrow⟩
  · rintro ⟨⟨haliases, hactions, htables, hresults⟩, hrow⟩
    simp only [← hlike.means_iff] at haliases hactions hresults
    refine ⟨haliases, hactions, ⟨?_, hnames.mpr htables.2⟩, hresults⟩
    simp only [hlike.means_iff]
    exact htypes.mpr ⟨hrow, htables.1⟩

theorem isWellFormed_withTable (hnew : e.name ∉ d.tables.map TableDef.name) :
    (d.withTable place e).IsWellFormed ↔ d.IsWellFormed ∧ ∃ type, d.Means e.type type := by
  have hlike : d.DeclaresLike (d.withTable place e) := declaresLike_withTable
  constructor
  · intro h
    obtain ⟨hchecks, hrow⟩ := (checksOut_withTable hnew).mp h.checks
    refine ⟨⟨hlike.symm.hasProperNames h.names, hlike.symm.lineages h, ?_, hchecks⟩, hrow⟩
    simp only [← hlike.means_iff]
    exact h.members
  · rintro ⟨h, hrow⟩
    refine ⟨hlike.hasProperNames h.names, hlike.lineages h, ?_, ?_⟩
    · simp only [hlike.means_iff]
      exact h.members
    · exact (checksOut_withTable hnew).mpr ⟨h.checks, hrow⟩

end Document

namespace TypeTable
set_option autoImplicit true

variable {d : Document} {t : TypeTable}

/-- A name that means a type has it as long as the walk may be as long as the name. -/
theorem IsOf.viewWithin_of_derives (ht : t.IsOf d) (h : d.Derives n name type)
    (hfuel : name.length < fuel) : t.viewWithin fuel name = .ok type := by
  induction fuel generalizing name type n with
  | zero => exact absurd hfuel (Nat.not_lt_zero _)
  | succ fuel ih =>
    cases hknown : t.lookup? name with
    | some u =>
      cases (ht.sound.means name u hknown).unique ht.names ⟨n, h⟩
      rw [viewWithin, hknown]
      rfl
    | none =>
      cases h.rule ht.names with
      | declared hdeclared => cases hknown.symm.trans (ht.sound.declared name type hdeclared)
      | suffix _ hsuffix _ hstem hw =>
        have hlt := Document.length_lt_of_split? hsuffix
        rw [viewWithin_suffix hknown hsuffix, ih hstem (by omega)]
        exact Suffix.wrap?_eq_some.mpr hw
      | builtin _ hsuffix hb _ htype =>
        simp only [viewWithin, hknown, hsuffix, hb, htype]
        rfl
      | via _ _ _ htarget =>
        -- an alias is remembered since its target was checked
        obtain ⟨a, ha, rfl, -⟩ := Document.aliasTarget?_eq_some htarget
        have hname : a.name ∈ d.declaredNames :=
          Document.mem_declaredNames.mpr (.inl ⟨a, ha, rfl⟩)
        obtain ⟨u, -, hlookup⟩ := ht.lookup? (List.mem_append_left _ hname)
        cases hknown.symm.trans hlookup

/-- Just the names that mean a type can be requested. -/
theorem IsOf.view_eq_ok (ht : t.IsOf d) : t.view name = .ok type ↔ d.Means name type := by
  constructor
  · exact ht.means_of_view
  · rintro ⟨n, h⟩
    exact ht.viewWithin_of_derives h (Nat.lt_succ_self _)

theorem IsOf.parts_eq {d' : Document} {t' : TypeTable} (ht : t.IsOf d) (ht' : t'.IsOf d')
    (h : d.DeclaresLike d') : t'.structs = t.structs ∧ t'.variants = t.variants := by
  have hstructs : Result.Each d'.StructMeans d'.structs t.structs := by
    rw [h.structs]
    exact ht.structs.mono fun _ _ => h.structMeans
  have hvariants : Result.Each d'.VariantMeans d'.variants t.variants := by
    rw [h.variants]
    exact ht.variants.mono fun _ _ => h.variantMeans
  constructor
  · exact ht'.structs.unique (fun _ _ _ hs hs' => hs.unique ht'.names hs') hstructs
  · exact ht'.variants.unique (fun _ _ _ hv hv' => hv.unique ht'.names hv') hvariants

/-- A name can be requested just if the document could have one more table with rows of that type.
The rows have the type that is requested, and nothing else changes: all structs, variants and other
requests stay what they are. The types that a request needs stand behind those of the table. -/
theorem view_eq_row (hbuild : build d = .ok t) (hnew : e.name ∉ d.tables.map TableDef.name)
    (place : Nat) :
    ((∃ type, t.view e.type = .ok type) ↔ ∃ t', build (d.withTable place e) = .ok t') ∧
    (∀ type t', t.view e.type = .ok type → build (d.withTable place e) = .ok t' →
      t'.lookup? e.type = some type ∧ t'.structs = t.structs ∧ t'.variants = t.variants ∧
      ∀ name u, t'.view name = .ok u ↔ t.view name = .ok u) ∧
    ∀ type, t.view e.type = .ok type →
      t.meanings.types <+: t.typesFor e.type ∧ type ∈ t.typesFor e.type := by
  have ht := isOf_of_build hbuild
  have hlike : d.DeclaresLike (d.withTable place e) := Document.declaresLike_withTable
  refine ⟨?_, ?_, ?_⟩
  · rw [exists_build_eq_ok, Document.isWellFormed_withTable hnew]
    simp only [ht.view_eq_ok]
    exact (and_iff_right (exists_build_eq_ok.mp ⟨t, hbuild⟩)).symm
  · intro type t' hview hbuild'
    have ht' := isOf_of_build hbuild'
    obtain ⟨hstructs, hvariants⟩ := ht.parts_eq ht' hlike
    have hrow : e.type ∈ (d.withTable place e).references := by
      have hmem : e ∈ (d.withTable place e).tables := Document.mem_withTable.mpr (.inl rfl)
      simp only [Document.references, List.mem_append]
      exact .inl (.inr (List.mem_map_of_mem hmem))
    refine ⟨ht'.lookup?_of_means hrow (hlike.means (ht.view_eq_ok.mp hview)), hstructs, hvariants,
      ?_⟩
    intro name u
    rw [ht'.view_eq_ok, ht.view_eq_ok, hlike.means_iff]
  · intro type hview
    have hadded := areTypes_added (arePlaced_of_build hbuild) (e.type.length + 1) e.type
    exact ⟨List.prefix_append _ _, hadded.2 type hview⟩

def rows (type : String) : TableDef := ⟨⟨1⟩, "i64", [], [], type⟩

theorem view_eq_row_list :
    build listDocument = .ok listTypes ∧
    listTypes.view "parent?$" = .ok (.extension (.optional (.struct "root"))) ∧
    (∃ t', build (listDocument.withTable 0 (rows "parent?$")) = .ok t' ∧
      t'.lookup? "parent?$" = some (.extension (.optional (.struct "root")))) ∧
    ¬∃ t', build (listDocument.withTable 0 (rows "ids?")) = .ok t' := by
  have hnew : ∀ type, (rows type).name ∉ listDocument.tables.map TableDef.name := nofun
  have hview : listTypes.view "parent?$" =
    .ok (.extension (.optional (.struct "root"))) := rfl
  have hnested : listTypes.view "ids?" = .error (.schema (.invalidNesting "ids?")) := rfl
  obtain ⟨hrequest, hrow, -⟩ := view_eq_row build_list (hnew "parent?$") 0
  obtain ⟨t', hbuild'⟩ := hrequest.mp ⟨_, hview⟩
  refine ⟨build_list, hview, ⟨t', hbuild', (hrow _ t' hview hbuild').1⟩, ?_⟩
  intro h
  obtain ⟨type, htype⟩ := (view_eq_row build_list (hnew "ids?") 0).1.mpr h
  cases hnested.symm.trans htype

end TypeTable
end ChainKit.Abi
