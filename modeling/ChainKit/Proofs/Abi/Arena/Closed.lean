import ChainKit.Proofs.Abi.Arena.Viewed

namespace ChainKit.Abi.Arena
set_option autoImplicit true

variable {d : Document} {a : Arena} {t : TypeTable}

theorem Agrees.ne_outOfRange {R : α → β → Prop} {x : Except (Fault ε) α} {y : Except ε β}
    (h : Agrees R x y) (i : TypeId) : x ≠ .error (.outOfRange i) := by
  cases h with
  | error => exact nofun
  | ok => exact nofun

theorem build_ne_outOfRange (d : Document) (i : TypeId) : build d ≠ .error (.outOfRange i) :=
  (build_agrees d).ne_outOfRange i

/-- Whether an arena has the types of a table: each name has the place of its type, and the entry
of each struct and variant has the parts of its type, each with the place of the part's type. -/
structure Represents (a : Arena) (t : TypeTable) : Prop where
  holds : a.Holds t.meanings
  structs : ∀ st ∈ t.structs, ∃ i parts, a.lookup? st.name = some i ∧
    a.get? i = some (.struct st.name parts) ∧
    Result.Each (fun g p => p.name = g.name ∧ t.meanings.types[p.type]? = some g.type)
      st.fields parts
  variants : ∀ vt ∈ t.variants, ∃ i parts, a.lookup? vt.name = some i ∧
    a.get? i = some (.variant vt.name parts) ∧
    Result.Each (fun g p => p.name = g.name ∧ t.meanings.types[p.type]? = some g.type)
      vt.members parts

theorem Represents.size_eq (h : a.Represents t) : a.size = t.size := h.holds.length_eq.symm

theorem IsPart.getElem? (h : IsPart a name type p) (ha : a.Holds t.meanings)
    (htype : t.lookup? type = some u) : t.meanings.types[p.type]? = some u := by
  obtain ⟨u', hknown, hat⟩ := ha.isAt h.placed
  cases hknown.symm.trans htype
  exact hat.type

theorem IsFull.represents (hfull : a.IsFull d) (ha : a.Holds t.meanings) (ht : t.IsOf d) :
    a.Represents t := by
  refine ⟨ha, ?_, ?_⟩
  · intro st hst
    obtain ⟨s, hs, -, -, hname, fields, hflat, hfields⟩ := ht.holdsStructs.mem hst
    obtain ⟨i, hi, fields', hflat', parts, he, hparts⟩ := hfull.structs s hs
    cases hflat.symm.trans hflat'
    rw [hname]
    refine ⟨i, parts, hi, he, (hfields.join hparts).mono ?_⟩
    rintro g p ⟨f, ⟨hg, htype⟩, hp⟩
    exact ⟨hp.named.trans hg.symm, hp.getElem? ha htype⟩
  · intro vt hvt
    obtain ⟨v, hv, -, -, hname, hmembers⟩ := ht.holdsVariants.mem hvt
    obtain ⟨i, hi, parts, he, hparts⟩ := hfull.variants v hv
    rw [hname]
    refine ⟨i, parts, hi, he, (hmembers.join hparts).mono ?_⟩
    rintro g p ⟨m, ⟨hg, htype⟩, hp⟩
    exact ⟨hp.named.trans hg.symm, hp.getElem? ha htype⟩

/-- The types of a document are built in places as they are built by name: for the same cause not,
or as the same types. -/
theorem build_represents (d : Document) : Agrees Represents (build d) (TypeTable.build d) := by
  apply (build_agrees d).mono_ok
  rintro a t ht ⟨hholds, hfull⟩
  exact hfull.represents hholds (TypeTable.isOf_of_build ht)

end ChainKit.Abi.Arena
