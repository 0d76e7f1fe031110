import ChainKit.Proofs.Abi.Reaches
import ChainKit.Proofs.Abi.Resolution.Places

namespace ChainKit.Abi

namespace TypeTable
set_option autoImplicit true

/-- The types that a request adds behind those of the table, in order. -/
def addedWithin (t : TypeTable) : (fuel : Nat) → String → List Ty
  | 0, _ => []
  | fuel + 1, name =>
    match t.lookup? name, Suffix.split? name, Builtin.ofName? name with
    | some _, _, _ => []
    | none, some (suffix, stem), _ =>
      t.addedWithin fuel stem ++ ((t.viewWithin fuel stem).toOption.bind suffix.wrap?).toList
    | none, none, some b => [.builtin b]
    | none, none, none => []

/-- The types of a table and those that a request adds. -/
def typesFor (t : TypeTable) (name : String) : List Ty :=
  t.meanings.types ++ t.addedWithin (name.length + 1) name

theorem viewWithin_suffix {t : TypeTable} (hnone : t.lookup? name = none)
    (hsuffix : Suffix.split? name = some (suffix, stem)) :
    t.viewWithin (fuel + 1) name = .ok type ↔
      (t.viewWithin fuel stem).toOption.bind suffix.wrap? = some type := by
  simp only [viewWithin, hnone, hsuffix]
  cases hstem : t.viewWithin fuel stem with
  | error e => simp [bind, Except.bind, Except.toOption]
  | ok u =>
    simp only [bind, Except.bind, Except.toOption, Option.bind]
    cases hwrap : suffix.wrap? u with
    | none => simp [throw, throwThe, MonadExceptOf.throw]
    | some v => simp only [pure, Except.pure, Except.ok.injEq, Option.some.injEq]

/-- What is requested is there, and so are the types that it wraps. -/
theorem areTypes_added {d : Document} {t : TypeTable} (ht : t.meanings.ArePlaced d) (fuel : Nat)
    (name : String) : d.AreTypes (t.meanings.types ++ t.addedWithin fuel name) ∧
      ∀ type, t.viewWithin fuel name = .ok type →
        type ∈ t.meanings.types ++ t.addedWithin fuel name := by
  induction fuel generalizing name with
  | zero =>
    rw [addedWithin, List.append_nil]
    refine ⟨ht.types, ?_⟩
    intro type h
    cases h
  | succ fuel ih =>
    cases hknown : t.lookup? name with
    | some type =>
      simp only [addedWithin, viewWithin, hknown, List.append_nil]
      refine ⟨ht.types, ?_⟩
      intro type' h
      cases h
      exact ht.named name type hknown
    | none =>
      cases hsuffix : Suffix.split? name with
      | some p =>
        obtain ⟨suffix, stem⟩ := p
        obtain ⟨htypes, hmem⟩ := ih stem
        simp only [viewWithin_suffix hknown hsuffix, addedWithin, hknown, hsuffix]
        cases hwrapped : (t.viewWithin fuel stem).toOption.bind suffix.wrap? with
        | none =>
          rw [Option.toList_none, List.append_nil]
          refine ⟨htypes, ?_⟩
          intro type h
          cases h
        | some type =>
          obtain ⟨u, hu, hwrap⟩ := Option.bind_eq_some_iff.mp hwrapped
          have hplace := hmem u (Result.toOption_eq_some.mp hu)
          rw [Option.toList_some, ← List.append_assoc]
          refine ⟨htypes.addWrapped hplace (Suffix.wrap?_eq_some.mp hwrap), ?_⟩
          intro type' h
          cases h
          exact List.mem_append_right _ List.mem_cons_self
      | none =>
        simp only [addedWithin, viewWithin, hknown, hsuffix]
        cases Builtin.ofName? name with
        | some b =>
          refine ⟨ht.types.addBuiltin b, ?_⟩
          intro type h
          cases h
          exact List.mem_append_right _ List.mem_cons_self
        | none =>
          rw [List.append_nil]
          refine ⟨ht.types, ?_⟩
          intro type h
          cases h

/-- Whether a table has all fields of a declared struct in order. -/
def HoldsStruct (t : TypeTable) (d : Document) (s : StructDef) (st : StructType) : Prop :=
  t.lookup? s.name = some (.struct s.name) ∧ t.struct? s.name = some st ∧ st.name = s.name ∧
    ∃ fields, d.flatten s = .ok fields ∧
      Result.Each (fun f g => g.name = f.name ∧ t.lookup? f.type = some g.type) fields st.fields

def HoldsVariant (t : TypeTable) (v : VariantDef) (vt : VariantType) : Prop :=
  t.lookup? v.name = some (.variant v.name) ∧ t.variant? v.name = some vt ∧ vt.name = v.name ∧
    Result.Each (fun m member => member.name = m ∧ t.lookup? m = some member.type)
      v.members vt.members

variable {d : Document} {t : TypeTable}

theorem IsOf.lookup?_of_means (ht : t.IsOf d) (hname : name ∈ d.references)
    (hmeans : d.Means name type) : t.lookup? name = some type := by
  obtain ⟨type', hmeans', hlookup⟩ := ht.lookup? (List.mem_append_right _ hname)
  cases hmeans.unique ht.names hmeans'
  exact hlookup

theorem mem_references_of_field (hs : s ∈ d.structs) (hf : f ∈ s.fields) :
    f.type ∈ d.references := by
  simp only [Document.references, List.mem_append, List.mem_flatMap]
  exact .inl (.inl (.inl (.inl (.inl ⟨s, hs, List.mem_map_of_mem hf⟩))))

theorem mem_references_of_lineage (hs : s ∈ d.structs) (h : d.Lineage s chain)
    (hf : f ∈ chain.flatMap StructDef.fields) : f.type ∈ d.references := by
  obtain ⟨b, hb, hf⟩ := List.mem_flatMap.mp hf
  exact mem_references_of_field (h.mem_structs hs hb) hf

theorem mem_references_of_member (hv : v ∈ d.variants) (hm : m ∈ v.members) :
    m ∈ d.references := by
  simp only [Document.references, List.mem_append, List.mem_flatMap]
  exact .inl (.inl (.inl (.inl (.inr ⟨v, hv, hm⟩))))

theorem IsOf.exists_struct? (ht : t.IsOf d) (hs : s ∈ d.structs) :
    ∃ st, t.struct? s.name = some st ∧ d.StructMeans s st := by
  have hnames : ∀ s' st', d.StructMeans s' st' → (s'.name == s.name) = (st'.name == s.name) := by
    intro s' st' h
    rw [h.1]
  exact ht.structs.find? hnames (ht.names.struct?_of_mem hs)

theorem IsOf.holdsStructs (ht : t.IsOf d) :
    Result.Each (t.HoldsStruct d) d.structs t.structs := by
  apply ht.structs.mono_mem
  intro s hs st hst
  obtain ⟨st', hfind, hst'⟩ := ht.exists_struct? hs
  cases hst.unique ht.names hst'
  obtain ⟨hstname, chain, hchain, hnodup, hfields⟩ := hst
  refine ⟨ht.sound.declared s.name _ (.struct hs), hfind, hstname, _,
    (Document.flatten_eq_ok ht.names).mpr ⟨chain, ⟨hchain, hnodup⟩, rfl⟩, ?_⟩
  apply hfields.mono_mem
  intro f hf g hg
  exact ⟨hg.1, ht.lookup?_of_means (mem_references_of_lineage hs hchain hf) hg.2⟩

theorem IsOf.holdsVariants (ht : t.IsOf d) :
    Result.Each t.HoldsVariant d.variants t.variants := by
  apply ht.variants.mono_mem
  intro v hv vt hvt
  have hnames : ∀ v' vt', d.VariantMeans v' vt' → (v'.name == v.name) = (vt'.name == v.name) := by
    intro v' vt' h
    rw [h.1]
  have hdeclared := Result.find?_of_nodup ht.names.disjoint.variants hv
  obtain ⟨vt', hfind, hvt'⟩ := ht.variants.find? hnames hdeclared
  cases hvt.unique ht.names hvt'
  refine ⟨ht.sound.declared v.name _ (.variant hv), hfind, hvt.1, ?_⟩
  apply hvt.2.mono_mem
  intro m hm member hmember
  exact ⟨hmember.1, ht.lookup?_of_means (mem_references_of_member hv hm) hmember.2⟩

end TypeTable

/-- A name that means a struct or variant leads to its declaration. -/
theorem Document.Means.declares {d : Document} {name : String} {type : Ty}
    (h : d.Means name type) (hinner : type.inner? = none) :
    (∃ b, type = .builtin b) ∨ ∃ declared, d.Declares declared type := by
  obtain ⟨n, h⟩ := h
  induction h with
  | @declared name type h => exact .inr ⟨name, h⟩
  | @builtin b => exact .inl ⟨b, rfl⟩
  | suffix _ hw _ => cases hw.inner?_eq.symm.trans hinner
  | via _ _ _ ih => exact ih hinner

namespace TypeTable
set_option autoImplicit true

theorem isExtension_of_declares {d : Document} (h : d.Declares name type) :
    type.isExtension = false := by
  cases h <;> rfl

def listTypes : TypeTable where
  structs := [⟨"list", [⟨"next", .optional (.struct "list")⟩,
      ⟨"all", .array (.builtin (.uint .w64))⟩]⟩,
    ⟨"root", [⟨"next", .optional (.struct "list")⟩]⟩]
  variants := []
  meanings :=
    { names := [("parent", .struct "root"), ("ids", .array (.builtin (.uint .w64))),
        ("id[]", .array (.builtin (.uint .w64))), ("id", .builtin (.uint .w64)),
        ("uint64", .builtin (.uint .w64)), ("list?", .optional (.struct "list")),
        ("list", .struct "list"), ("root", .struct "root")]
      types := [.struct "list", .struct "root", .optional (.struct "list"),
        .builtin (.uint .w64), .array (.builtin (.uint .w64))] }

theorem build_list : build listDocument = .ok listTypes := by decide +kernel

end TypeTable
end ChainKit.Abi
