import ChainKit.Abi.Arena
import ChainKit.Proofs.Abi.Reaches

namespace ChainKit.Abi.Arena
set_option autoImplicit true

namespace Entry

/-- The places that an entry refers to. -/
def places : Entry → List TypeId
  | .builtin _ => []
  | .struct _ parts | .variant _ parts => parts.map Part.type
  | .array i | .optional i | .extension i => [i]

/-- Whether an entry stands for a type, given the types of all places. -/
inductive Is (ts : List Ty) : Entry → Ty → Prop where
  | builtin : Is ts (.builtin b) (.builtin b)
  | struct : (∀ p ∈ fields, p.type < ts.length) → Is ts (.struct name fields) (.struct name)
  | variant : (∀ p ∈ members, p.type < ts.length) →
      Is ts (.variant name members) (.variant name)
  | array : ts[i]? = some t → Is ts (.array i) (.array t)
  | optional : ts[i]? = some t → Is ts (.optional i) (.optional t)
  | extension : ts[i]? = some t → Is ts (.extension i) (.extension t)

/-- Whether an entry holds nothing that its kind must not hold. -/
def IsWellNested (get? : TypeId → Option Entry) : Entry → Prop
  | .array i | .optional i => ∃ e, get? i = some e ∧ e.isWrapped = false
  | .extension i => ∃ e, get? i = some e ∧ e.isExtension = false
  | _ => True

theorem Is.isWrapped_eq (h : Is ts e t) : e.isWrapped = t.isWrapped := by
  cases h <;> rfl

theorem Is.isExtension_eq (h : Is ts e t) : e.isExtension = t.isExtension := by
  cases h <;> rfl

theorem getElem?_append_of_some {ts : List Ty} {i : TypeId} (h : ts[i]? = some t)
    (more : List Ty) : (ts ++ more)[i]? = some t := by
  rw [List.getElem?_append_left (List.getElem?_eq_some_iff.mp h).1, h]

/-- More places change nothing of what stands. -/
theorem Is.append (h : Is ts e t) (more : List Ty) : Is (ts ++ more) e t := by
  have hlt : ∀ n, n < ts.length → n < (ts ++ more).length := by
    intro n hn
    rw [List.length_append]
    exact Nat.lt_add_right _ hn
  cases h with
  | builtin => exact .builtin
  | struct hparts => exact .struct fun p hp => hlt _ (hparts p hp)
  | variant hparts => exact .variant fun p hp => hlt _ (hparts p hp)
  | array hid => exact .array (getElem?_append_of_some hid more)
  | optional hid => exact .optional (getElem?_append_of_some hid more)
  | extension hid => exact .extension (getElem?_append_of_some hid more)

/-- A suffix makes an entry of what it makes a type of. -/
theorem Is.wrap? (h : Is ts e t) (hid : ts[i]? = some t) (suffix : Suffix) :
    Option.Rel (Is ts) (Entry.wrap? suffix i e) (suffix.wrap? t) := by
  cases suffix with
  | array =>
    rw [Entry.wrap?, Suffix.wrap?, h.isWrapped_eq]
    split
    · exact .none
    · exact .some (.array hid)
  | optional =>
    rw [Entry.wrap?, Suffix.wrap?, h.isWrapped_eq]
    split
    · exact .none
    · exact .some (.optional hid)
  | extension =>
    rw [Entry.wrap?, Suffix.wrap?, h.isExtension_eq]
    split
    · exact .none
    · exact .some (.extension hid)

end Entry

/-- The places that are reached from a place. -/
inductive Reaches (get? : TypeId → Option Entry) : TypeId → TypeId → Prop where
  | here : Reaches get? i i
  | step : get? i = some e → next ∈ e.places → Reaches get? next deep → Reaches get? i deep

/-- Whether the entries stand for types, place by place. -/
def Stores (get? : TypeId → Option Entry) (ts : List Ty) : Prop :=
  ∀ i, Option.Rel (Entry.Is ts) (get? i) ts[i]?

namespace Stores

variable {get? get?' : TypeId → Option Entry}

theorem exists_entry (h : Stores get? ts) (hid : ts[i]? = some t) :
    ∃ e, get? i = some e ∧ e.Is ts t := by
  have hrel := h i
  rw [hid] at hrel
  generalize get? i = stored at hrel
  cases hrel with
  | some he => exact ⟨_, rfl, he⟩

theorem exists_type (h : Stores get? ts) (hid : get? i = some e) :
    ∃ t, ts[i]? = some t ∧ e.Is ts t := by
  have hrel := h i
  rw [hid] at hrel
  generalize ts[i]? = type at hrel
  cases hrel with
  | some he => exact ⟨_, rfl, he⟩

theorem lt_length (h : Stores get? ts) (hid : get? i = some e) : i < ts.length := by
  obtain ⟨t, ht, -⟩ := h.exists_type hid
  exact (List.getElem?_eq_some_iff.mp ht).1

theorem length_eq (h : Stores get? ts) (hsize : ∀ i, get? i = none ↔ n ≤ i) :
    ts.length = n := by
  apply Nat.le_antisymm
  · apply Nat.le_of_not_lt
    intro hlt
    obtain ⟨e, he, -⟩ := h.exists_entry (List.getElem?_eq_getElem hlt)
    cases ((hsize n).mpr (Nat.le_refl n)).symm.trans he
  · apply (hsize ts.length).mp
    have hrel := h ts.length
    rw [List.getElem?_eq_none (Nat.le_refl _)] at hrel
    generalize get? ts.length = stored at hrel
    cases hrel with
    | none => rfl

theorem push (h : Stores get? ts) (he : e.Is ts t)
    (hold : ∀ i, i ≠ ts.length → get?' i = get? i) (hnew : get?' ts.length = some e) :
    Stores get?' (ts ++ [t]) := by
  intro i
  by_cases hid : i = ts.length
  · rw [hid, hnew, List.getElem?_concat_length]
    exact .some (he.append [t])
  · have hrel := h i
    have htype : (ts ++ [t])[i]? = ts[i]? := by
      rcases Nat.lt_or_gt_of_ne hid with hlt | hgt
      · exact List.getElem?_append_left hlt
      · have hle : (ts ++ [t]).length ≤ i := by
          rw [List.length_append]
          exact hgt
        rw [List.getElem?_eq_none hle, List.getElem?_eq_none (Nat.le_of_lt hgt)]
    rw [hold i hid, htype]
    generalize get? i = stored at hrel
    generalize ts[i]? = type at hrel
    cases hrel with
    | none => exact .none
    | some hs => exact .some (hs.append [t])

/-- An entry is put in the place of another that stands for the same type. -/
theorem overwrite (h : Stores get? ts) (he : e.Is ts t) (hid : ts[i]? = some t)
    (hold : ∀ other, other ≠ i → get?' other = get? other) (hnew : get?' i = some e) :
    Stores get?' ts := by
  intro other
  by_cases ho : other = i
  · rw [ho, hnew, hid]
    exact .some he
  · rw [hold other ho]
    exact h other

theorem isWellNested {e : Entry} {t : Ty} (h : Stores get? ts) (he : e.Is ts t)
    (ht : t.IsWellNested) : e.IsWellNested get? := by
  cases he with
  | array hid =>
    obtain ⟨e, he, hin⟩ := h.exists_entry hid
    exact ⟨e, he, hin.isWrapped_eq.trans ht.1⟩
  | optional hid =>
    obtain ⟨e, he, hin⟩ := h.exists_entry hid
    exact ⟨e, he, hin.isWrapped_eq.trans ht.1⟩
  | extension hid =>
    obtain ⟨e, he, hin⟩ := h.exists_entry hid
    exact ⟨e, he, hin.isExtension_eq.trans ht.1⟩
  | _ => trivial

end Stores
end ChainKit.Abi.Arena
