import ChainKit.Proofs.Abi.Resolution.Table

namespace ChainKit.Abi

namespace Document
set_option autoImplicit true

/-- Whether each name that a document declares or refers to means a type, and nothing is declared
twice. -/
structure IsWellFormed (d : Document) : Prop where
  names : d.HasProperNames
  lineages : ∀ s ∈ d.structs, ∃ chain, d.Lineage s chain ∧ (chain.map StructDef.name).Nodup ∧
    ∀ b ∈ chain, ∀ f ∈ b.fields, ∃ t, d.Means f.type t
  members : ∀ v ∈ d.variants, ∀ m ∈ v.members, ∃ t, d.Means m t
  checks : d.ChecksOut

theorem checkNames_cons : checkNames seen (name :: names) = .ok u ↔
    (name ≠ "" ∧ Builtin.ofName? name = none ∧ Suffix.split? name = none ∧ name ∉ seen) ∧
      checkNames (name :: seen) names = .ok u := by
  rw [checkNames, ← Option.not_isSome_iff_eq_none, ← Option.not_isSome_iff_eq_none,
    ← List.contains_iff_mem]
  by_cases hempty : name = ""
  · rw [if_pos hempty]
    constructor
    · intro h
      cases h
    · exact fun h => absurd hempty h.1.1
  rw [if_neg hempty]
  by_cases hb : (Builtin.ofName? name).isSome
  · rw [if_pos hb]
    constructor
    · intro h
      cases h
    · exact fun h => absurd hb h.1.2.1
  rw [if_neg hb]
  by_cases hs : (Suffix.split? name).isSome
  · rw [if_pos hs]
    constructor
    · intro h
      cases h
    · exact fun h => absurd hs h.1.2.2.1
  rw [if_neg hs]
  by_cases hseen : seen.contains name
  · rw [if_pos hseen]
    constructor
    · intro h
      cases h
    · exact fun h => absurd hseen h.1.2.2.2
  rw [if_neg hseen]
  exact ⟨fun h => ⟨⟨hempty, hb, hs, hseen⟩, h⟩, fun h => h.2⟩

theorem checkNames_eq_ok : checkNames seen names = .ok u ↔
    (∀ name ∈ names, name ≠ "" ∧ Builtin.ofName? name = none ∧ Suffix.split? name = none ∧
      name ∉ seen) ∧ names.Nodup := by
  induction names generalizing seen with
  | nil => exact ⟨fun _ => ⟨nofun, List.nodup_nil⟩, fun _ => rfl⟩
  | cons name names ih =>
    rw [checkNames_cons, ih, List.forall_mem_cons, List.nodup_cons]
    constructor
    · rintro ⟨hname, hrest, hnodup⟩
      refine ⟨⟨hname, ?_⟩, fun hm => (hrest name hm).2.2.2 List.mem_cons_self, hnodup⟩
      intro n hn
      obtain ⟨hne, hb, hs, hnew⟩ := hrest n hn
      exact ⟨hne, hb, hs, fun hm => hnew (List.mem_cons_of_mem _ hm)⟩
    · rintro ⟨⟨hname, hrest⟩, hnotin, hnodup⟩
      refine ⟨hname, ?_, hnodup⟩
      intro n hn
      obtain ⟨hne, hb, hs, hnew⟩ := hrest n hn
      refine ⟨hne, hb, hs, ?_⟩
      intro hm
      rcases List.mem_cons.mp hm with rfl | hm
      · exact hnotin hn
      · exact hnew hm

theorem checkDeclared_eq_ok {d : Document} :
    checkNames [] d.declaredNames = .ok u ↔ d.HasProperNames := by
  rw [checkNames_eq_ok]
  constructor
  · rintro ⟨h, hnodup⟩
    refine ⟨fun name hn => (h name hn).1, ?_, ?_, hnodup⟩
    · rintro name hn b rfl
      have hb := (h _ hn).2.1
      rw [Builtin.ofName?_typeName] at hb
      cases hb
    · rintro name hn stem suffix rfl
      have hs := (h _ hn).2.2.1
      rw [Suffix.split?_append] at hs
      cases hs
  · intro h
    refine ⟨fun name hn => ⟨h.nonempty name hn, ?_, ?_, List.not_mem_nil⟩, h.distinct⟩
    · exact Builtin.ofName?_eq_none (h.not_builtin name hn)
    · exact Suffix.split?_eq_none (h.no_suffix name hn)

variable {d : Document}

theorem mem_declarations : (name, t) ∈ d.declarations ↔ d.Declares name t := by
  rw [declarations, List.mem_append, List.mem_map, List.mem_map]
  constructor
  · rintro (⟨s, hs, he⟩ | ⟨v, hv, he⟩)
    · cases he
      exact .struct hs
    · cases he
      exact .variant hv
  · intro h
    cases h with
    | @struct s hs => exact .inl ⟨s, hs, rfl⟩
    | @variant v hv => exact .inr ⟨v, hv, rfl⟩

theorem areSound_declarations (hd : d.HasProperNames) :
    Meanings.AreSound ⟨d.declarations, types⟩ d := by
  have hdeclares : ∀ name t, d.declarations.lookup name = some t → d.Declares name t := by
    intro name t h
    obtain ⟨front, back, he, -⟩ := List.lookup_eq_some_iff.mp h
    exact mem_declarations.mp (he ▸ List.mem_append_right _ List.mem_cons_self)
  constructor
  · intro name t h
    exact ⟨0, .declared (hdeclares name t h)⟩
  · intro name t h
    cases hu : d.declarations.lookup name with
    | none =>
      have hne := List.lookup_eq_none_iff.mp hu _ (mem_declarations.mpr h)
      exact absurd hne (by simp)
    | some u =>
      rw [hd.declares_unique h (hdeclares name u hu)]
      exact hu

theorem exists_each_structMeans : (∃ sts, Result.Each d.StructMeans d.structs sts) ↔
    ∀ s ∈ d.structs, ∃ chain, d.Lineage s chain ∧ (chain.map StructDef.name).Nodup ∧
      ∀ b ∈ chain, ∀ f ∈ b.fields, ∃ t, d.Means f.type t := by
  rw [Result.exists_each]
  refine forall₂_congr fun s _ => ?_
  constructor
  · rintro ⟨st, -, chain, hchain, hnodup, hfields⟩
    refine ⟨chain, hchain, hnodup, ?_⟩
    intro b hb f hf
    obtain ⟨g, -, hg⟩ := Result.exists_each.mp ⟨_, hfields⟩ f (List.mem_flatMap.mpr ⟨b, hb, hf⟩)
    exact ⟨g.type, hg⟩
  · rintro ⟨chain, hchain, hnodup, hfields⟩
    have heach : ∀ f ∈ chain.flatMap StructDef.fields, ∃ g, d.FieldMeans f g := by
      intro f hf
      obtain ⟨b, hb, hf⟩ := List.mem_flatMap.mp hf
      obtain ⟨t, ht⟩ := hfields b hb f hf
      exact ⟨⟨f.name, t⟩, rfl, ht⟩
    obtain ⟨gs, hgs⟩ := Result.exists_each.mpr heach
    exact ⟨⟨s.name, gs⟩, rfl, chain, hchain, hnodup, hgs⟩

theorem exists_each_variantMeans : (∃ vts, Result.Each d.VariantMeans d.variants vts) ↔
    ∀ v ∈ d.variants, ∀ m ∈ v.members, ∃ t, d.Means m t := by
  rw [Result.exists_each]
  refine forall₂_congr fun v _ => ?_
  constructor
  · rintro ⟨vt, -, hmembers⟩ m hm
    obtain ⟨member, -, ht⟩ := Result.exists_each.mp ⟨_, hmembers⟩ m hm
    exact ⟨member.type, ht⟩
  · intro hmembers
    have heach : ∀ m ∈ v.members, ∃ member, d.MemberMeans m member := by
      intro m hm
      obtain ⟨t, ht⟩ := hmembers m hm
      exact ⟨⟨m, t⟩, rfl, ht⟩
    obtain ⟨ms, hms⟩ := Result.exists_each.mpr heach
    exact ⟨⟨v.name, ms⟩, rfl, hms⟩

end Document

namespace TypeTable
set_option autoImplicit true

/-- What a table holds of its document. -/
structure IsOf (t : TypeTable) (d : Document) : Prop where
  names : d.HasProperNames
  structs : Result.Each d.StructMeans d.structs t.structs
  variants : Result.Each d.VariantMeans d.variants t.variants
  checks : d.ChecksOut
  sound : t.meanings.AreSound d
  known : ∀ name ∈ d.references, (t.lookup? name).isSome

theorem isOf_of_build {t : TypeTable} (h : build d = .ok t) : t.IsOf d := by
  rw [build] at h
  obtain ⟨_, hnames, h⟩ := Result.bind_eq_ok.mp h
  obtain ⟨⟨⟨structs, variants⟩, meanings⟩, hrun, h⟩ := Result.bind_eq_ok.mp h
  cases h
  have hd := Document.checkDeclared_eq_ok.mp hnames
  obtain ⟨⟨hs, hv, hchecks⟩, hafter⟩ :=
    (Document.finds_resolveAll hd).sound _ _ _ (Document.areSound_declarations hd) hrun
  exact ⟨hd, hs, hv, hchecks, hafter.sound, hafter.met⟩

theorem exists_build_eq_ok {d : Document} : (∃ t, build d = .ok t) ↔ d.IsWellFormed := by
  constructor
  · rintro ⟨t, h⟩
    have hof := isOf_of_build h
    exact ⟨hof.names, Document.exists_each_structMeans.mp ⟨_, hof.structs⟩,
      Document.exists_each_variantMeans.mp ⟨_, hof.variants⟩, hof.checks⟩
  · rintro ⟨hd, hlineages, hmembers, hchecks⟩
    obtain ⟨structs, hs⟩ := Document.exists_each_structMeans.mpr hlineages
    obtain ⟨variants, hv⟩ := Document.exists_each_variantMeans.mpr hmembers
    obtain ⟨meanings, hrun⟩ := (Document.finds_resolveAll hd).complete _ (structs, variants)
      (Document.areSound_declarations hd) ⟨hs, hv, hchecks⟩
    refine ⟨⟨structs, variants, meanings⟩, Result.bind_eq_ok.mpr ⟨(), ?_, ?_⟩⟩
    · exact Document.checkDeclared_eq_ok.mpr hd
    · exact Result.bind_eq_ok.mpr ⟨_, hrun, rfl⟩

theorem IsOf.means_of_view {t : TypeTable} (ht : t.IsOf d) (h : t.view name = .ok type) :
    d.Means name type := by
  rw [view] at h
  generalize name.length + 1 = fuel at h
  induction fuel generalizing name type with
  | zero => cases h
  | succ fuel ih =>
    rw [viewWithin] at h
    split at h
    · rename_i hknown
      cases h
      exact ht.sound.means name type hknown
    · rename_i suffix stem hnone hsuffix
      obtain ⟨u, hu, h⟩ := Result.bind_eq_ok.mp h
      obtain ⟨n, hn⟩ := ih hu
      split at h
      · rename_i type' hwrap
        cases h
        rw [Suffix.eq_of_split? hsuffix]
        exact ⟨n + 1, .suffix hn (Suffix.wrap?_eq_some.mp hwrap)⟩
      · cases h
    · rename_i b hnone hsuffix hb
      cases h
      rw [← Builtin.typeName_of_ofName? hb]
      exact ⟨0, .builtin⟩
    · cases h

theorem IsOf.lookup? {t : TypeTable} (ht : t.IsOf d)
    (hname : name ∈ d.declaredNames ++ d.references) :
    ∃ type, d.Means name type ∧ t.lookup? name = some type := by
  have hknown : (t.lookup? name).isSome := by
    rcases List.mem_append.mp hname with hname | hname
    · rcases Document.mem_declaredNames.mp hname with ⟨a, ha, rfl⟩ | ⟨s, hs, rfl⟩ | ⟨v, hv, rfl⟩
      · apply ht.known
        simp only [Document.references, List.mem_append]
        exact .inl (.inl (.inl (.inr (List.mem_map_of_mem ha))))
      · exact Option.isSome_of_eq_some (ht.sound.declared s.name _ (.struct hs))
      · exact Option.isSome_of_eq_some (ht.sound.declared v.name _ (.variant hv))
    · exact ht.known name hname
  obtain ⟨type, htype⟩ := Option.isSome_iff_exists.mp hknown
  exact ⟨type, ht.sound.means name type htype, htype⟩

/-- Just the well-formed documents have types; the names of such a document have the types that
they mean; and no walk through a document is cut short, whatever cycles the document has. -/
theorem build_correct (d : Document) :
    ((∃ t, build d = .ok t) ↔ d.IsWellFormed) ∧
    (∀ t, build d = .ok t → ∀ name ∈ d.declaredNames ++ d.references, ∃ type, d.Means name type ∧
      (∀ other, d.Means name other → other = type) ∧ t.lookup? name = some type) ∧
    (∀ name fuel, d.stepBound name ≤ fuel → d.resolveWithin fuel [] name = d.resolve name) ∧
    (∀ name fuel, d.aliases.length + 2 ≤ fuel →
      d.baseNameWithin fuel [] name = d.baseName name) ∧
    ∀ s fuel, d.structs.length + 1 ≤ fuel →
      d.lineageWithin s.name fuel [s.name] s = d.lineage s := by
  refine ⟨exists_build_eq_ok, ?_, ?_, ?_, ?_⟩
  · intro t h name hname
    have ht := isOf_of_build h
    obtain ⟨type, htype, hlookup⟩ := ht.lookup? hname
    exact ⟨type, htype, fun other ho => ho.unique ht.names htype, hlookup⟩
  · exact fun name fuel h => Document.resolveWithin_of_le h
  · exact fun name fuel h => Document.baseNameWithin_of_le h
  · exact fun s fuel h => Document.lineageWithin_of_le h

def listDocument : Document :=
  { aliases := [⟨"ids", "id[]"⟩, ⟨"id", "uint64"⟩, ⟨"parent", "root"⟩]
    structs := [⟨"list", "parent", [⟨"all", "ids"⟩]⟩, ⟨"root", "", [⟨"next", "list?"⟩]⟩] }

def loopDocument : Document :=
  { listDocument with aliases := [⟨"ids", "id[]"⟩, ⟨"id", "ids"⟩, ⟨"parent", "root"⟩] }

theorem build_correct_list :
    listDocument.IsWellFormed ∧ ¬loopDocument.IsWellFormed ∧
    ∃ t, build listDocument = .ok t ∧
      t.lookup? "ids" = some (.array (.builtin (.uint .w64))) ∧
      listDocument.Means "ids" (.array (.builtin (.uint .w64))) := by
  have hsome : (build listDocument).toOption.isSome := by decide +kernel
  have hlookup : ((build listDocument).toOption.bind fun t => t.lookup? "ids") =
    some (.array (.builtin (.uint .w64))) := by decide +kernel
  have hloop : build loopDocument = .error (.aliasCycle "ids") := by decide +kernel
  obtain ⟨t, ht⟩ := Option.isSome_iff_exists.mp hsome
  rw [ht] at hlookup
  have hbuild := Result.toOption_eq_some.mp ht
  obtain ⟨type, hmeans, -, htype⟩ :=
    (build_correct listDocument).2.1 t hbuild "ids" (by decide)
  cases htype.symm.trans hlookup
  refine ⟨(build_correct listDocument).1.mp ⟨t, hbuild⟩, ?_, t, hbuild, hlookup, hmeans⟩
  intro h
  obtain ⟨t, ht⟩ := (build_correct loopDocument).1.mpr h
  cases hloop.symm.trans ht

end TypeTable
end ChainKit.Abi
