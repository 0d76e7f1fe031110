import ChainKit.Abi.TypeTable
import ChainKit.Proofs.Result

namespace ChainKit.Abi

namespace Suffix
set_option autoImplicit true

theorem split?_append (stem : String) (suffix : Suffix) :
    split? (stem ++ suffix.text) = some (suffix, stem) := by
  cases suffix <;> simp [split?, splitReversed?, text]

theorem eq_of_split? (h : split? name = some (suffix, stem)) : name = stem ++ suffix.text := by
  obtain ⟨⟨s, cs⟩, hs, he⟩ := Option.map_eq_some_iff.mp h
  cases he
  have hname : name = String.ofList name.toList.reverse.reverse := by simp
  generalize name.toList.reverse = rs at hs hname
  unfold splitReversed? at hs
  split at hs
  all_goals cases hs
  all_goals
    rw [hname]
    simp [text, String.ofList_append]

theorem split?_eq_none (h : ∀ stem suffix, name ≠ stem ++ text suffix) : split? name = none := by
  cases hs : split? name with
  | none => rfl
  | some p => exact absurd (eq_of_split? hs) (h p.2 p.1)

/-- What a suffix makes of a type: arrays and optional values of types that are not wrapped,
extensions of types that are no extensions. -/
inductive Wraps : Suffix → Ty → Ty → Prop where
  | array : t.isWrapped = false → Wraps .array t (.array t)
  | optional : t.isWrapped = false → Wraps .optional t (.optional t)
  | extension : t.isExtension = false → Wraps .extension t (.extension t)

theorem Wraps.unique (h : Wraps suffix t u) (h' : Wraps suffix t u') : u = u' := by
  cases h <;> cases h' <;> rfl

theorem wrap?_eq_some : wrap? suffix t = some t' ↔ Wraps suffix t t' := by
  constructor
  · intro h
    cases suffix with
    | array =>
      simp only [wrap?] at h
      split at h
      · cases h
      · cases h
        exact .array (Bool.eq_false_iff.mpr ‹_›)
    | optional =>
      simp only [wrap?] at h
      split at h
      · cases h
      · cases h
        exact .optional (Bool.eq_false_iff.mpr ‹_›)
    | extension =>
      simp only [wrap?] at h
      split at h
      · cases h
      · cases h
        exact .extension (Bool.eq_false_iff.mpr ‹_›)
  · intro h
    cases h with
    | array h => simp [wrap?, h]
    | optional h => simp [wrap?, h]
    | extension h => simp [wrap?, h]

end Suffix

namespace Builtin
set_option autoImplicit true

theorem ofName?_typeName (b : Builtin) : ofName? b.typeName = some b := by
  cases b with
  | int w => cases w <;> rfl
  | uint w => cases w <;> rfl
  | checksum size => cases size <;> rfl
  | _ => rfl

theorem typeName_of_ofName? {text : String} (h : ofName? text = some b) : b.typeName = text := by
  have hb := List.find?_some h
  exact eq_of_beq hb

theorem split?_typeName (b : Builtin) : Suffix.split? b.typeName = none := by
  cases b with
  | int w => cases w <;> rfl
  | uint w => cases w <;> rfl
  | checksum size => cases size <;> rfl
  | _ => rfl

theorem ofName?_eq_none {text : String} (h : ∀ b, text ≠ typeName b) : ofName? text = none := by
  cases hb : ofName? text with
  | none => rfl
  | some b => exact absurd (typeName_of_ofName? hb).symm (h b)

end Builtin

namespace Document
set_option autoImplicit true

/-- Whether the declared names are distinct and cannot be taken for anything else. -/
structure HasProperNames (d : Document) : Prop where
  nonempty : ∀ name ∈ d.declaredNames, name ≠ ""
  not_builtin : ∀ name ∈ d.declaredNames, ∀ b, name ≠ Builtin.typeName b
  no_suffix : ∀ name ∈ d.declaredNames, ∀ stem suffix, name ≠ stem ++ Suffix.text suffix
  distinct : d.declaredNames.Nodup

/-- Whether no name is declared twice, in one list or in two. -/
structure AreDisjoint (d : Document) : Prop where
  aliases : (d.aliases.map AliasDef.name).Nodup
  structs : (d.structs.map StructDef.name).Nodup
  variants : (d.variants.map VariantDef.name).Nodup
  alias_struct : ∀ a ∈ d.aliases, ∀ s ∈ d.structs, a.name ≠ s.name
  alias_variant : ∀ a ∈ d.aliases, ∀ v ∈ d.variants, a.name ≠ v.name
  struct_variant : ∀ s ∈ d.structs, ∀ v ∈ d.variants, s.name ≠ v.name

/-- The struct or variant that a document declares under a name. -/
inductive Declares (d : Document) : String → Ty → Prop where
  | struct : s ∈ d.structs → Declares d s.name (.struct s.name)
  | variant : v ∈ d.variants → Declares d v.name (.variant v.name)

theorem mem_declaredNames {d : Document} : name ∈ d.declaredNames ↔
    (∃ a ∈ d.aliases, a.name = name) ∨ (∃ s ∈ d.structs, s.name = name) ∨
      ∃ v ∈ d.variants, v.name = name := by
  simp [declaredNames]

theorem Declares.mem {d : Document} (h : d.Declares name t) : name ∈ d.declaredNames := by
  cases h with
  | struct hs => exact mem_declaredNames.mpr (.inr (.inl ⟨_, hs, rfl⟩))
  | variant hv => exact mem_declaredNames.mpr (.inr (.inr ⟨_, hv, rfl⟩))

theorem aliasTarget?_eq_some {d : Document} (h : d.aliasTarget? name = some target) :
    ∃ a ∈ d.aliases, a.name = name ∧ a.target = target := by
  obtain ⟨a, ha, he⟩ := Option.map_eq_some_iff.mp h
  have hname := List.find?_some ha
  exact ⟨a, List.mem_of_find?_eq_some ha, eq_of_beq hname, he⟩

namespace HasProperNames

variable {d : Document}

theorem disjoint (h : d.HasProperNames) : d.AreDisjoint := by
  have hd := h.distinct
  simp only [declaredNames, List.nodup_append, List.mem_map, List.mem_append] at hd
  obtain ⟨⟨ha, hs, has⟩, hv, hasv⟩ := hd
  refine ⟨ha, hs, hv, ?_, ?_, ?_⟩
  · exact fun a haa s hss => has a.name ⟨a, haa, rfl⟩ s.name ⟨s, hss, rfl⟩
  · exact fun a haa v hvv => hasv a.name (.inl ⟨a, haa, rfl⟩) v.name ⟨v, hvv, rfl⟩
  · exact fun s hss v hvv => hasv s.name (.inr ⟨s, hss, rfl⟩) v.name ⟨v, hvv, rfl⟩

theorem declares_unique (h : d.HasProperNames) (ht : d.Declares name t) (hu : d.Declares name u) :
    t = u := by
  cases ht with
  | @struct s hs =>
    generalize hname : s.name = name at hu
    cases hu with
    | struct => rfl
    | variant hv => exact absurd hname (h.disjoint.struct_variant s hs _ hv)
  | @variant v hv =>
    generalize hname : v.name = name at hu
    cases hu with
    | struct hs => exact absurd hname.symm (h.disjoint.struct_variant _ hs v hv)
    | variant => rfl

theorem aliasTarget?_of_mem (h : d.HasProperNames) (ha : a ∈ d.aliases) :
    d.aliasTarget? a.name = some a.target := by
  rw [aliasTarget?, Result.find?_of_nodup h.disjoint.aliases ha]
  rfl

theorem struct?_of_mem (h : d.HasProperNames) (hs : s ∈ d.structs) : d.struct? s.name = some s :=
  Result.find?_of_nodup h.disjoint.structs hs

end HasProperNames

/-- The meanings of names, with the number of names that are passed on the way. -/
inductive Derives (d : Document) : (steps : Nat) → String → Ty → Prop where
  | declared : d.Declares name t → Derives d 0 name t
  | builtin : Derives d 0 (Builtin.typeName b) (.builtin b)
  | suffix : Derives d n stem t → Suffix.Wraps suffix t t' →
      Derives d (n + 1) (stem ++ suffix.text) t'
  | via : a ∈ d.aliases → Derives d n a.target t → t.isExtension = false →
      Derives d (n + 1) a.name t

/-- Whether a name means a type. -/
def Means (d : Document) (name : String) (t : Ty) : Prop := ∃ n, d.Derives n name t

theorem Derives.mono {d d' : Document} (hdeclares : ∀ name t, d.Declares name t → d'.Declares name t)
    (haliases : d.aliases ⊆ d'.aliases) (h : d.Derives n name t) : d'.Derives n name t := by
  induction h with
  | declared h => exact .declared (hdeclares _ _ h)
  | builtin => exact .builtin
  | suffix _ hw ih => exact .suffix ih hw
  | via ha _ hext ih => exact .via (haliases ha) ih hext

/-- The rule that a derivation ends with, as resolution tells it. -/
inductive Rule (d : Document) (n : Nat) (name : String) (t : Ty) : Prop where
  | declared : d.Declares name t → n = 0 → Rule d n name t
  | suffix : (∀ u, ¬d.Declares name u) → Suffix.split? name = some (suffix, stem) →
      n = m + 1 → d.Derives m stem u → Suffix.Wraps suffix u t → Rule d n name t
  | builtin : (∀ u, ¬d.Declares name u) → Suffix.split? name = none →
      Builtin.ofName? name = some b → n = 0 → t = .builtin b → Rule d n name t
  | via : (∀ u, ¬d.Declares name u) → Suffix.split? name = none → Builtin.ofName? name = none →
      d.aliasTarget? name = some target → n = m + 1 → d.Derives m target t →
      t.isExtension = false → Rule d n name t

theorem Derives.rule {d : Document} (hd : d.HasProperNames) (h : d.Derives n name t) :
    d.Rule n name t := by
  cases h with
  | declared h => exact .declared h rfl
  | @builtin b =>
    have hdecl : ∀ u, ¬d.Declares b.typeName u := fun u hu => hd.not_builtin _ hu.mem b rfl
    exact .builtin hdecl (Builtin.split?_typeName b) (Builtin.ofName?_typeName b) rfl rfl
  | @suffix n stem t suffix _ h hw =>
    have hdecl : ∀ u, ¬d.Declares (stem ++ suffix.text) u :=
      fun u hu => hd.no_suffix _ hu.mem stem suffix rfl
    exact .suffix hdecl (Suffix.split?_append stem suffix) rfl h hw
  | @via a n _ ha h he =>
    have hmem : a.name ∈ d.declaredNames := mem_declaredNames.mpr (.inl ⟨a, ha, rfl⟩)
    refine .via ?_ (Suffix.split?_eq_none (hd.no_suffix _ hmem))
      (Builtin.ofName?_eq_none (hd.not_builtin _ hmem)) (hd.aliasTarget?_of_mem ha) rfl h he
    intro t ht
    generalize hname : a.name = name at ht
    cases ht with
    | struct hs => exact hd.disjoint.alias_struct a ha _ hs hname
    | variant hv => exact hd.disjoint.alias_variant a ha _ hv hname

/-- A name has one meaning and one way to it. -/
theorem Derives.unique {d : Document} (hd : d.HasProperNames) (h : d.Derives n name t)
    (h' : d.Derives m name u) : n = m ∧ t = u := by
  induction n using Nat.strongRecOn generalizing name t m u with
  | ind n ih =>
    cases h.rule hd with
    | declared hdecl hn =>
      cases h'.rule hd with
      | declared hdecl' hm => exact ⟨hn.trans hm.symm, hd.declares_unique hdecl hdecl'⟩
      | suffix hdecl' => exact absurd hdecl (hdecl' t)
      | builtin hdecl' => exact absurd hdecl (hdecl' t)
      | via hdecl' => exact absurd hdecl (hdecl' t)
    | suffix hdecl hsuffix hn hinner hw =>
      cases h'.rule hd with
      | declared hdecl' => exact absurd hdecl' (hdecl u)
      | suffix _ hsuffix' hm hinner' hw' =>
        cases hsuffix.symm.trans hsuffix'
        obtain ⟨rfl, rfl⟩ := ih _ (by omega) hinner hinner'
        exact ⟨hn.trans hm.symm, hw.unique hw'⟩
      | builtin _ hsuffix' => cases hsuffix.symm.trans hsuffix'
      | via _ hsuffix' => cases hsuffix.symm.trans hsuffix'
    | builtin hdecl hsuffix hb hn ht =>
      cases h'.rule hd with
      | declared hdecl' => exact absurd hdecl' (hdecl u)
      | suffix _ hsuffix' => cases hsuffix.symm.trans hsuffix'
      | builtin _ _ hb' hm hu =>
        cases hb.symm.trans hb'
        exact ⟨hn.trans hm.symm, ht.trans hu.symm⟩
      | via _ _ hb' => cases hb.symm.trans hb'
    | via hdecl hsuffix hb htarget hn htgt =>
      cases h'.rule hd with
      | declared hdecl' => exact absurd hdecl' (hdecl u)
      | suffix _ hsuffix' => cases hsuffix.symm.trans hsuffix'
      | builtin _ _ hb' => cases hb.symm.trans hb'
      | via _ _ _ htarget' hm htgt' =>
        cases htarget.symm.trans htarget'
        obtain ⟨rfl, rfl⟩ := ih _ (by omega) htgt htgt'
        exact ⟨hn.trans hm.symm, rfl⟩

theorem Means.unique {d : Document} (hd : d.HasProperNames) (h : d.Means name t)
    (h' : d.Means name u) : t = u := by
  obtain ⟨_, h⟩ := h
  obtain ⟨_, h'⟩ := h'
  exact (h.unique hd h').2

end Document
end ChainKit.Abi
