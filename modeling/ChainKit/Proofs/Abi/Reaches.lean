import ChainKit.Proofs.Abi.Content
import ChainKit.Proofs.Abi.Resolution.WellFormed

namespace ChainKit.Abi

namespace TypeTable
set_option autoImplicit true

/-- The types of the parts of a type. -/
inductive Part (t : TypeTable) : Ty → Ty → Prop where
  | field : f ∈ t.fieldsOf name → Part t (.struct name) f.type
  | member : m ∈ t.membersOf name → Part t (.variant name) m.type
  | item : Part t (.array type) type
  | given : Part t (.optional type) type
  | present : Part t (.extension type) type

/-- The types that are reached from a type. -/
inductive Reaches (t : TypeTable) : Ty → Ty → Prop where
  | here : Reaches t type type
  | step : t.Part type part → Reaches t part deep → Reaches t type deep

def partsOf (t : TypeTable) : Ty → List Ty
  | .builtin _ => []
  | .struct name => (t.fieldsOf name).map Field.type
  | .variant name => (t.membersOf name).map Member.type
  | .array type | .optional type | .extension type => [type]

theorem mem_partsOf {t : TypeTable} (h : t.Part type part) : part ∈ t.partsOf type := by
  cases h with
  | field hf => exact List.mem_map_of_mem hf
  | member hm => exact List.mem_map_of_mem hm
  | item => exact List.mem_cons_self
  | given => exact List.mem_cons_self
  | present => exact List.mem_cons_self

/-- Whether a condition holds of each type that is reached. -/
def Throughout (t : TypeTable) (P : Ty → Prop) (type : Ty) : Prop :=
  ∀ deep, t.Reaches type deep → P deep

namespace Throughout

variable {t : TypeTable}

theorem here {P : Ty → Prop} (h : t.Throughout P type) : P type := h type .here

theorem part {P : Ty → Prop} {inner : Ty} (h : t.Throughout P type) (hp : t.Part type inner) :
    t.Throughout P inner := fun deep hd => h deep (.step hp hd)

theorem of_parts {P : Ty → Prop} (h : P type)
    (hstep : ∀ type part, P type → t.Part type part → P part) : t.Throughout P type := by
  intro deep hi
  induction hi with
  | here => exact h
  | step hp _ ih => exact ih (hstep _ _ h hp)

/-- A condition holds throughout a type if it holds in a list that is closed under parts. -/
theorem of_closed {P : Ty → Prop} (types : List Ty) (h : type ∈ types)
    (hclosed : ∀ u ∈ types, ∀ part ∈ t.partsOf u, part ∈ types) (hP : ∀ u ∈ types, P u) :
    t.Throughout P type := by
  intro deep hi
  induction hi with
  | here => exact hP _ h
  | step hp _ ih => exact ih (hclosed _ h _ (mem_partsOf hp))

end Throughout

/-- Whether the fields of a struct have distinct names. -/
def HasDistinctFields (t : TypeTable) : Ty → Prop
  | .struct name => ((t.fieldsOf name).map Field.name).Nodup
  | _ => True

instance (t : TypeTable) : DecidablePred t.HasDistinctFields
  | .struct name => inferInstanceAs (Decidable ((t.fieldsOf name).map Field.name).Nodup)
  | .builtin _ | .variant _ | .array _ | .optional _ | .extension _ => .isTrue trivial

def HasDistinctMembers (t : TypeTable) : Ty → Prop
  | .variant name => ((t.membersOf name).map Member.name).Nodup
  | _ => True

instance (t : TypeTable) : DecidablePred t.HasDistinctMembers
  | .variant name => inferInstanceAs (Decidable ((t.membersOf name).map Member.name).Nodup)
  | .builtin _ | .struct _ | .array _ | .optional _ | .extension _ => .isTrue trivial

end TypeTable

namespace Ty
set_option autoImplicit true

def Avoids (P : Builtin → Prop) : Ty → Prop
  | .builtin b => ¬P b
  | _ => True

instance (P : Builtin → Prop) [DecidablePred P] : DecidablePred (Avoids P)
  | .builtin b => inferInstanceAs (Decidable ¬P b)
  | .struct _ | .variant _ | .array _ | .optional _ | .extension _ => .isTrue trivial

theorem isExtension_of_not_isWrapped {type : Ty} (h : type.isWrapped = false) :
    type.isExtension = false := by
  cases type with
  | extension inner => cases h
  | _ => rfl

/-- Whether arrays and optional values hold nothing wrapped, and extensions hold no extension. -/
def IsWellNested : Ty → Prop
  | .array inner | .optional inner => inner.isWrapped = false ∧ inner.IsWellNested
  | .extension inner => inner.isExtension = false ∧ inner.IsWellNested
  | _ => True

def decideWellNested : (type : Ty) → Decidable type.IsWellNested
  | .array inner | .optional inner | .extension inner =>
    @instDecidableAnd _ _ _ inner.decideWellNested
  | .builtin _ | .struct _ | .variant _ => .isTrue trivial

instance : DecidablePred IsWellNested := decideWellNested

theorem IsWellNested.wraps {inner : Ty} (h : inner.IsWellNested)
    (hw : Suffix.Wraps suffix inner type) : type.IsWellNested := by
  cases hw with
  | array hn => exact ⟨hn, h⟩
  | optional hn => exact ⟨hn, h⟩
  | extension hn => exact ⟨hn, h⟩

end Ty

theorem Document.Means.isWellNested {d : Document} {name : String} {type : Ty}
    (h : d.Means name type) : type.IsWellNested := by
  obtain ⟨n, h⟩ := h
  induction h with
  | declared h => cases h <;> trivial
  | builtin => trivial
  | suffix _ hw ih => exact ih.wraps hw
  | via _ _ _ ih => exact ih

namespace TypeTable
set_option autoImplicit true

theorem mem_fieldsOf {t : TypeTable} (h : f ∈ t.fieldsOf name) :
    ∃ s ∈ t.structs, f ∈ s.fields :=
  Result.mem_of_mem_find? rfl h

theorem mem_membersOf {t : TypeTable} (h : m ∈ t.membersOf name) :
    ∃ v ∈ t.variants, m ∈ v.members :=
  Result.mem_of_mem_find? rfl h

/-- All types that are reached from a requested type are well nested. -/
theorem isWellNested_of_view {t : TypeTable} (h : build d = .ok t) (hv : t.view name = .ok type) :
    t.Throughout Ty.IsWellNested type := by
  have ht := isOf_of_build h
  apply Throughout.of_parts (ht.means_of_view hv).isWellNested
  intro type part htype hp
  cases hp with
  | field hf =>
    obtain ⟨st, hst, hf⟩ := mem_fieldsOf hf
    obtain ⟨s, -, -, chain, -, -, hfields⟩ := ht.structs.mem hst
    obtain ⟨f, -, -, hmeans⟩ := hfields.mem hf
    exact hmeans.isWellNested
  | member hm =>
    obtain ⟨vt, hvt, hm⟩ := mem_membersOf hm
    obtain ⟨v, -, -, hmembers⟩ := ht.variants.mem hvt
    obtain ⟨m, -, -, hmeans⟩ := hmembers.mem hm
    exact hmeans.isWellNested
  | item => exact htype.2
  | given => exact htype.2
  | present => exact htype.2

end TypeTable
end ChainKit.Abi
