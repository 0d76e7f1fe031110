import ChainKit.Proofs.Abi.Resolution.WellFormed

namespace ChainKit.Abi

def Ty.inner? : Ty → Option Ty
  | .array inner | .optional inner | .extension inner => some inner
  | _ => none

namespace Suffix
set_option autoImplicit true

theorem Wraps.inner?_eq (h : Wraps suffix t u) : u.inner? = some t := by
  cases h <;> rfl

end Suffix

namespace Document
set_option autoImplicit true

/-- Whether each type of a list is the meaning of a name, and what it wraps is in the list too. -/
structure AreTypes (d : Document) (types : List Ty) : Prop where
  meant : ∀ u ∈ types, ∃ name, d.Means name u
  inner : ∀ u ∈ types, ∀ v, u.inner? = some v → v ∈ types

variable {d : Document}

theorem AreTypes.add (h : d.AreTypes types) (hmeans : d.Means name u)
    (hinner : ∀ v, u.inner? = some v → v ∈ types) : d.AreTypes (types ++ [u]) := by
  constructor
  · intro w hw
    rcases List.mem_append.mp hw with hw | hw
    · exact h.meant w hw
    · cases List.mem_singleton.mp hw
      exact ⟨name, hmeans⟩
  · intro w hw v hv
    apply List.mem_append_left
    rcases List.mem_append.mp hw with hw | hw
    · exact h.inner w hw v hv
    · cases List.mem_singleton.mp hw
      exact hinner v hv

theorem AreTypes.addBuiltin (h : d.AreTypes types) (b : Builtin) :
    d.AreTypes (types ++ [.builtin b]) := h.add ⟨0, .builtin⟩ nofun

theorem AreTypes.addWrapped (h : d.AreTypes types) (ht : t ∈ types)
    (hw : Suffix.Wraps suffix t u) : d.AreTypes (types ++ [u]) := by
  obtain ⟨stem, n, hstem⟩ := h.meant t ht
  apply h.add ⟨n + 1, .suffix hstem hw⟩
  intro v hv
  cases hw.inner?_eq.symm.trans hv
  exact ht

theorem areTypes_declarations (d : Document) : d.AreTypes (d.declarations.map Prod.snd) := by
  constructor
  · intro u hu
    obtain ⟨⟨name, _⟩, hdeclared, rfl⟩ := List.mem_map.mp hu
    exact ⟨name, 0, .declared (mem_declarations.mp hdeclared)⟩
  · intro u hu v hv
    obtain ⟨⟨name, _⟩, hdeclared, rfl⟩ := List.mem_map.mp hu
    cases mem_declarations.mp hdeclared with
    | struct hs => cases hv
    | variant hv' => cases hv

end Document

namespace Meanings
set_option autoImplicit true

/-- Whether each name is remembered for a type that is there. -/
structure ArePlaced (m : Meanings) (d : Document) : Prop where
  types : d.AreTypes m.types
  named : ∀ name t, m.lookup? name = some t → t ∈ m.types

variable {d : Document} {m m' : Meanings}

theorem ArePlaced.remember (h : m.ArePlaced d) (ht : t ∈ m.types) (name : String) :
    ArePlaced ⟨(name, t) :: m.names, m.types⟩ d := by
  refine ⟨h.types, ?_⟩
  intro other u hu
  by_cases he : other = name
  · subst he
    cases lookup?_cons_self.symm.trans hu
    exact ht
  · rw [lookup?_cons_of_ne (u := m.types) he] at hu
    exact h.named other u hu

theorem ArePlaced.extend (h : m.ArePlaced d) (htypes : d.AreTypes (m.types ++ [t])) :
    ArePlaced ⟨m.names, m.types ++ [t]⟩ d :=
  ⟨htypes, fun name u hu => List.mem_append_left _ (h.named name u hu)⟩

theorem ArePlaced.add (h : m.ArePlaced d) (htypes : d.AreTypes (m.types ++ [t])) (name : String) :
    ArePlaced ⟨(name, t) :: m.names, m.types ++ [t]⟩ d :=
  (h.extend htypes).remember (List.mem_append_right _ List.mem_cons_self) name

theorem arePlaced_declarations (d : Document) :
    ArePlaced ⟨d.declarations, d.declarations.map Prod.snd⟩ d := by
  refine ⟨d.areTypes_declarations, ?_⟩
  intro name t h
  obtain ⟨front, back, he, -⟩ := List.lookup_eq_some_iff.mp h
  have he : d.declarations = front ++ (name, t) :: back := he
  have hmem : (name, t) ∈ d.declarations := he ▸ List.mem_append_right _ List.mem_cons_self
  exact List.mem_map_of_mem hmem

end Meanings

/-- A name is resolved as a type that is there, and each type that is added on the way stands
behind what it wraps. -/
theorem Document.arePlaced_of_resolveWithin {d : Document} {m m' : Meanings} {fuel : Nat}
    {visited : List String} {name : String} {t : Ty} (hm : m.ArePlaced d)
    (h : d.resolveWithin fuel visited name m = .ok (t, m')) : m'.ArePlaced d ∧ t ∈ m'.types := by
  induction fuel generalizing visited name t m m' with
  | zero => cases h
  | succ fuel ih =>
    rw [resolveWithin, Resolving.get_bind_apply] at h
    cases hknown : m.lookup? name with
    | some u =>
      simp only [hknown] at h
      cases h
      exact ⟨hm, hm.named name t hknown⟩
    | none =>
      cases hsuffix : Suffix.split? name with
      | some p =>
        obtain ⟨suffix, stem⟩ := p
        simp only [hknown, hsuffix] at h
        obtain ⟨u, m₁, hu, h⟩ := Resolving.bind_eq_ok.mp h
        obtain ⟨hm₁, hmem⟩ := ih hm hu
        cases hwrap : suffix.wrap? u with
        | none =>
          simp only [hwrap] at h
          cases h
        | some t' =>
          simp only [hwrap] at h
          cases h
          have htypes := hm₁.types.addWrapped hmem (Suffix.wrap?_eq_some.mp hwrap)
          exact ⟨hm₁.add htypes name, List.mem_append_right _ List.mem_cons_self⟩
      | none =>
        cases hb : Builtin.ofName? name with
        | some b =>
          simp only [hknown, hsuffix, hb] at h
          cases h
          exact ⟨hm.add (hm.types.addBuiltin b) name, List.mem_append_right _ List.mem_cons_self⟩
        | none =>
          cases htarget : d.aliasTarget? name with
          | none =>
            simp only [hknown, hsuffix, hb, htarget] at h
            cases h
          | some target =>
            simp only [hknown, hsuffix, hb, htarget] at h
            split at h
            · cases h
            · obtain ⟨u, m₁, hu, h⟩ := Resolving.bind_eq_ok.mp h
              obtain ⟨hm₁, hmem⟩ := ih hm hu
              split at h
              · cases h
              · cases h
                exact ⟨hm₁.remember hmem name, hmem⟩

namespace Resolving
set_option autoImplicit true

/-- Whether a computation that succeeds keeps a condition on what is remembered. -/
def Keeps (I : Meanings → Prop) (x : Resolving ε α) : Prop :=
  ∀ m a m', I m → x m = .ok (a, m') → I m'

namespace Keeps

variable {I : Meanings → Prop}

theorem pure (a : α) : Keeps I (Pure.pure a : Resolving ε α) := by
  intro m b m' hm h
  cases h
  exact hm

theorem lift (x : Except ε α) : Keeps I (liftM x : Resolving ε α) := by
  intro m a m' hm h
  obtain ⟨b, -, h⟩ := Result.bind_eq_ok.mp h
  cases h
  exact hm

theorem throw (e : ε) : Keeps I (MonadExcept.throw e : Resolving ε α) := by
  intro m a m' hm h
  cases h

theorem bind {x : Resolving ε α} {f : α → Resolving ε β} (hx : Keeps I x)
    (hf : ∀ a, Keeps I (f a)) : Keeps I (x >>= f) := by
  intro m b m' hm h
  obtain ⟨a, m₁, ha, hb⟩ := bind_eq_ok.mp h
  exact hf a m₁ b m' (hx m a m₁ hm ha) hb

theorem map {x : Resolving ε α} (f : α → β) (h : Keeps I x) :
    Keeps I (x >>= fun a => Pure.pure (f a)) := h.bind fun a => pure (f a)

theorem mapM {f : α → Resolving ε β} (h : ∀ x, Keeps I (f x)) (xs : List α) :
    Keeps I (xs.mapM f) := by
  induction xs with
  | nil => exact pure []
  | cons x xs ih =>
    rw [List.mapM_cons]
    apply (h x).bind
    intro y
    exact ih.map (y :: ·)

theorem forM {f : α → Resolving ε PUnit} (h : ∀ x, Keeps I (f x)) (xs : List α) :
    Keeps I (xs.forM f) := by
  induction xs with
  | nil => exact pure PUnit.unit
  | cons x xs ih =>
    apply (h x).bind
    intro _
    exact ih

end Keeps
end Resolving

namespace Document
set_option autoImplicit true

open Resolving

variable (d : Document)

theorem keeps_resolveReference (referrer : Referrer) (name : String) :
    Keeps (·.ArePlaced d) (d.resolveReference referrer name) := by
  intro m t m' hm h
  exact (arePlaced_of_resolveWithin hm (Result.mapError_eq_ok.mp h)).1

theorem keeps_structType (s : StructDef) : Keeps (·.ArePlaced d) (d.structType s) := by
  refine (Keeps.lift _).bind ?_
  intro fields
  apply Keeps.map
  apply Keeps.mapM
  intro f
  exact (d.keeps_resolveReference _ _).map _

theorem keeps_variantType (v : VariantDef) : Keeps (·.ArePlaced d) (d.variantType v) := by
  apply Keeps.map
  apply Keeps.mapM
  intro m
  exact (d.keeps_resolveReference _ _).map _

theorem keeps_checkAlias (a : AliasDef) : Keeps (·.ArePlaced d) (d.checkAlias a) :=
  (d.keeps_resolveReference _ _).map _

theorem keeps_checkResult (r : ActionResultDef) : Keeps (·.ArePlaced d) (d.checkResult r) :=
  (d.keeps_resolveReference _ _).map _

theorem keeps_checkEntries (referrer : Name → Referrer) (duplicate : Name → SchemaError)
    (seen : List Name) (entries : List (Name × String)) :
    Keeps (·.ArePlaced d) (d.checkEntries referrer duplicate seen entries) := by
  induction entries generalizing seen with
  | nil => exact Keeps.pure ()
  | cons e entries ih =>
    rw [checkEntries]
    split
    · exact Keeps.throw _
    · apply (d.keeps_resolveReference _ _).bind
      intro _
      exact ih _

theorem keeps_resolveAll : Keeps (·.ArePlaced d) d.resolveAll := by
  refine (Keeps.mapM d.keeps_structType _).bind ?_
  intro structs
  refine (Keeps.mapM d.keeps_variantType _).bind ?_
  intro variants
  refine (Keeps.forM d.keeps_checkAlias _).bind ?_
  intro _
  refine (d.keeps_checkEntries _ _ _ _).bind ?_
  intro _
  refine (d.keeps_checkEntries _ _ _ _).bind ?_
  intro _
  refine (Keeps.forM d.keeps_checkResult _).bind ?_
  intro _
  exact Keeps.pure (structs, variants)

end Document

theorem TypeTable.arePlaced_of_build {d : Document} {t : TypeTable} (h : build d = .ok t) :
    t.meanings.ArePlaced d := by
  rw [build] at h
  obtain ⟨_, _, h⟩ := Result.bind_eq_ok.mp h
  obtain ⟨⟨parts, meanings⟩, hrun, h⟩ := Result.bind_eq_ok.mp h
  cases h
  exact d.keeps_resolveAll _ parts meanings (Meanings.arePlaced_declarations d) hrun

end ChainKit.Abi
