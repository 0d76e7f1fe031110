import ChainKit.Proofs.Abi.Delimiting
import ChainKit.Proofs.Abi.Limits
import ChainKit.Proofs.Json.Written
import ChainKit.Proofs.Wire.Within

namespace ChainKit.Abi

namespace Leaf

theorem nesting_showFloat (x : Binary64) : (showFloat x).nesting = 0 := by
  rw [showFloat]
  split
  · rfl
  · split <;> rfl

theorem nesting_toJson_le (l : Leaf) : l.toJson.nesting ≤ 1 := by
  cases l with
  | int w i =>
    rw [toJson]
    split <;> exact Nat.zero_le 1
  | uint w n =>
    rw [toJson]
    split <;> exact Nat.zero_le 1
  | float32 bits =>
    rw [toJson, nesting_showFloat]
    exact Nat.zero_le 1
  | float64 x =>
    rw [toJson, nesting_showFloat]
    exact Nat.zero_le 1
  | extendedAsset a => exact Nat.le_refl 1
  | _ => exact Nat.zero_le 1

end Leaf

namespace TypeTable

/-- Whether a value has the form of a type, with no more than `n` items in each array of an array
type. -/
inductive IsBounded (t : TypeTable) (n : Nat) : Ty → Json → Prop where
  | builtin (b : Builtin) (l : Leaf) : IsBounded t n (.builtin b) l.toJson
  | empty (name : String) : IsBounded t n (.struct name) (.obj [])
  | member {name : String} {f : Field} {v : Json} {members : List (String × Json)} :
      f ∈ t.fieldsOf name → IsBounded t n f.type v → IsBounded t n (.struct name) (.obj members) →
      IsBounded t n (.struct name) (.obj ((f.name, v) :: members))
  | variant {name : String} {m : Member} {v : Json} : m ∈ t.membersOf name →
      IsBounded t n m.type v → IsBounded t n (.variant name) (.arr [.str m.name, v])
  | array {item : Ty} {vs : List Json} : vs.length ≤ n → (∀ v ∈ vs, IsBounded t n item v) →
      IsBounded t n (.array item) (.arr vs)
  | null {inner : Ty} : IsBounded t n (.optional inner) .null
  | given {inner : Ty} {v : Json} : IsBounded t n inner v → IsBounded t n (.optional inner) v
  | absent {inner : Ty} : IsBounded t n (.extension inner) .null
  | present {inner : Ty} {v : Json} : IsBounded t n inner v → IsBounded t n (.extension inner) v

theorem IsBounded.of_members {t : TypeTable} {n : Nat} {name : String}
    {members : List (String × Json)}
    (h : ∀ m ∈ members, ∃ f ∈ t.fieldsOf name, f.name = m.1 ∧ t.IsBounded n f.type m.2) :
    t.IsBounded n (.struct name) (.obj members) := by
  induction members with
  | nil => exact .empty name
  | cons m members ih =>
    obtain ⟨⟨f, hf, hname, hv⟩, hmembers⟩ := List.forall_mem_cons.mp h
    obtain ⟨key, v⟩ := m
    cases hname
    exact .member hf hv (ih hmembers)

end TypeTable

namespace Decode
set_option autoImplicit true
open Wire

section

variable {item : Decode Json} {value : Ty → Decode Json}

theorem within_items {P : Json → Prop} (h : Within n item P) (i : Nat) (hdone : ∀ v ∈ done, P v)
    (count : Nat) : Within n (items item i done count) fun vs =>
      vs.length = done.length + count ∧ ∀ v ∈ vs, P v := by
  induction count generalizing i done with
  | zero => exact Within.pure ⟨rfl, hdone⟩
  | succ count ih =>
    apply (h.adapt _).bind
    intro v hv
    apply (ih (i + 1) (List.forall_mem_cons.mpr ⟨hv, hdone⟩)).mono
    rintro vs ⟨hlength, hvs⟩
    rw [List.length_cons] at hlength
    exact ⟨by omega, hvs⟩

/-- Items that take no bytes are no more than the limit, and others no more than the bytes. -/
theorem within_array {P : Json → Prop} (h : Within n item P) (hlimit : limit ≤ n) :
    Within n (array limit item) fun w =>
      ∃ vs, w = .arr vs ∧ vs.length ≤ n ∧ ∀ v ∈ vs, P v := by
  rw [array_eq]
  apply Within.position
  intro offset
  apply ((Within.of_delimits Read.isComposed_varuint.delimits).adapt _).bind
  intro count _ r w r' hn hr
  by_cases hcount : limit < count ∧ r.remaining < count
  · simp only [if_pos hcount] at hr
    cases hr
  · simp only [if_neg hcount] at hr
    obtain ⟨vs, r₁, hvs, hw⟩ := bind_eq_ok hr
    cases hw
    obtain ⟨hn', hlength, hitems⟩ := within_items h 0 (List.forall_mem_nil P) count r vs r' hn hvs
    rw [List.length_nil, Nat.zero_add] at hlength
    refine ⟨hn', vs.reverse, rfl, ?_, fun v hv => hitems v (List.mem_reverse.mp hv)⟩
    rw [List.length_reverse]
    omega

theorem within_fields {Q : String × Json → Prop}
    (h : ∀ f ∈ fs, Within n (value f.type) fun v => Q (f.name, v)) (hdone : ∀ m ∈ done, Q m) :
    Within n (fields value done fs) fun members => ∀ m ∈ members, Q m := by
  induction fs generalizing done with
  | nil => exact Within.pure hdone
  | cons f fs ih =>
    obtain ⟨hf, hfs⟩ := List.forall_mem_cons.mp h
    rw [fields_cons]
    intro r members r' hn hr
    by_cases hended : f.type.isExtension && r.isEmpty
    · simp only [if_pos hended] at hr
      exact ih hfs hdone r members r' hn hr
    · simp only [if_neg hended] at hr
      have hfield : Within n (part (.field f.name) (value f.type) >>= fun v =>
          fields value (Json.insert done f.name v) fs) fun members => ∀ m ∈ members, Q m :=
        (hf.adapt _).bind fun v hv => ih hfs (Json.forall_mem_insert hdone hv)
      exact hfield r members r' hn hr

theorem within_variant {P : Ty → Json → Prop} {u : VariantType}
    (h : ∀ m ∈ u.members, Within n (value m.type) (P m.type)) :
    Within n (variant value u) fun w =>
      ∃ m ∈ u.members, ∃ v, w = .arr [.str m.name, v] ∧ P m.type v := by
  apply Within.position
  intro offset
  apply ((Within.of_delimits Read.isComposed_varuint.delimits).adapt _).bind
  intro tag _
  cases hm : u.members[tag]? with
  | none => exact Within.throw _ _
  | some m =>
    have hmem := List.mem_of_getElem? hm
    apply ((h m hmem).adapt _).map
    intro v hv
    exact ⟨m, hmem, v, rfl, hv⟩

theorem within_optional {P : Json → Prop} (h : Within n item P) :
    Within n (optional item) fun w => w = .null ∨ P w := by
  apply Within.position
  intro offset
  apply ((Within.of_delimits Read.isComposed_byte.delimits).adapt _).bind
  intro flag _
  apply Within.ite
  · exact Within.pure (.inl rfl)
  · apply Within.ite
    · exact h.mono fun _ => .inr
    · exact Within.throw _ _

theorem within_extension {P : Json → Prop} (h : Within n item P) :
    Within n (extension item) fun w => w = .null ∨ P w := by
  intro r w r' hn hr
  rw [extension, atEnd_bind] at hr
  split at hr
  · exact Within.pure (P := fun w => w = Json.null ∨ P w) (.inl rfl) r w r' hn hr
  · exact (h.mono fun _ => Or.inr) r w r' hn hr

end

/-- What is decoded is bounded, and nests no deeper than there are levels. -/
theorem within_value {t : TypeTable} {c : Config} (hlimit : c.maxArrayLength ≤ n) (levels : Nat)
    (type : Ty) : Within n (value t c levels type) fun v =>
      t.IsBounded n type v ∧ v.nesting ≤ levels := by
  induction levels generalizing type with
  | zero =>
    apply Within.position
    intro offset
    exact Within.throw _ _
  | succ levels ih =>
    cases type with
    | builtin b =>
      apply Within.adapt
      apply (Within.of_delimits (Leaf.isComposed_read c.strictBool b).delimits).map
      intro l _
      exact ⟨.builtin b l, Nat.le_trans l.nesting_toJson_le (Nat.succ_le_succ (Nat.zero_le _))⟩
    | struct name =>
      apply (within_fields (Q := fun m => (∃ f ∈ t.fieldsOf name, f.name = m.1 ∧
        t.IsBounded n f.type m.2) ∧ m.2.nesting ≤ levels) ?_ (List.forall_mem_nil _)).map
      · intro members hmembers
        refine ⟨.of_members fun m hm => (hmembers m hm).1, ?_⟩
        rw [Json.nesting]
        exact Nat.succ_le_succ (Json.membersNesting_le.mpr fun m hm => (hmembers m hm).2)
      · intro f hf
        apply (ih f.type).mono
        rintro v ⟨hv, hnesting⟩
        exact ⟨⟨f, hf, rfl, hv⟩, hnesting⟩
    | variant name =>
      apply (within_variant (P := fun type v => t.IsBounded n type v ∧ v.nesting ≤ levels)
        fun m _ => ih m.type).mono
      rintro w ⟨m, hm, v, rfl, hv, hnesting⟩
      refine ⟨.variant hm hv, ?_⟩
      simp only [Json.nesting, Json.itemsNesting]
      omega
    | array item =>
      apply (within_array (ih item) hlimit).mono
      rintro w ⟨vs, rfl, hlength, hvs⟩
      refine ⟨.array hlength fun v hv => (hvs v hv).1, ?_⟩
      rw [Json.nesting]
      exact Nat.succ_le_succ (Json.itemsNesting_le.mpr fun v hv => (hvs v hv).2)
    | optional inner =>
      apply (within_optional (ih inner)).mono
      rintro w (rfl | ⟨hw, hnesting⟩)
      · exact ⟨.null, Nat.zero_le _⟩
      · exact ⟨.given hw, Nat.le_succ_of_le hnesting⟩
    | extension inner =>
      apply (within_extension (ih inner)).mono
      rintro w (rfl | ⟨hw, hnesting⟩)
      · exact ⟨.absent, Nat.zero_le _⟩
      · exact ⟨.present hw, Nat.le_succ_of_le hnesting⟩

end Decode

namespace Contract
set_option autoImplicit true

/-- What is decoded as a type is bounded by the data and the limits: an array of an array type has
no more items than the data has bytes or else the limit allows, and arrays and objects nest at most
one deeper than the depth in the limits. For depths up to 126 the text of the value is therefore
read whatever its content, within the nesting that the parser allows: a greater limit there would
change nothing. -/
theorem decode_isBounded {c : Contract} (hdecode : c.decode config name bs = .ok w) :
    ∃ type, c.types.view name = .ok type ∧
      c.types.IsBounded (max bs.length config.maxArrayLength) type w ∧
      w.nesting ≤ config.maxDepth + 1 ∧
      (config.maxDepth ≤ 126 → ∃ s, Json.Source.parse? (Json.render w) = some s ∧
        s.nesting = w.nesting ∧ s.nesting ≤ Json.maxNesting ∧
        ∀ levels, Json.maxNesting ≤ levels → s.toJson? levels = Json.parse? (Json.render w)) := by
  obtain ⟨type, hview⟩ := exists_view_of_decode hdecode
  obtain ⟨p, hrun⟩ := (decode_eq_ok hview).mp hdecode
  have hlimit : config.maxArrayLength ≤ max bs.length config.maxArrayLength := Nat.le_max_right _ _
  obtain ⟨-, hbounded, hnesting⟩ := Decode.within_value hlimit config.levels type _ w _
    (Nat.le_max_left _ _) hrun
  refine ⟨type, hview, hbounded, hnesting, ?_⟩
  intro hdepth
  have hparse := Json.parse?_render w
  have hform := Json.Source.nesting_written w
  have hmax : (Json.Source.written w).nesting ≤ Json.maxNesting := by
    rw [hform]
    exact Nat.le_trans hnesting (Nat.succ_le_succ hdepth)
  refine ⟨_, hparse, hform, hmax, ?_⟩
  intro levels hlevels
  rw [Json.parse?, hparse]
  exact Json.Source.toJson?_of_nesting_le (Nat.le_trans hmax hlevels) hmax

def treeDocument : Document :=
  { structs := [⟨"mark", "", []⟩, ⟨"tree", "", [⟨"marks", "mark[]"⟩, ⟨"parts", "tree[]"⟩]⟩] }

def treeTypes : TypeTable where
  structs := [⟨"mark", []⟩,
    ⟨"tree", [⟨"marks", .array (.struct "mark")⟩, ⟨"parts", .array (.struct "tree")⟩]⟩]
  variants := []
  meanings :=
    { names := [("tree[]", .array (.struct "tree")), ("mark[]", .array (.struct "mark")),
        ("mark", .struct "mark"), ("tree", .struct "tree")]
      types := [.struct "mark", .struct "tree", .array (.struct "mark"), .array (.struct "tree")] }

def tree : Json :=
  .obj [("marks", .arr [.obj [], .obj [], .obj []]),
    ("parts", .arr [.obj [("marks", .arr []), ("parts", .arr [])]])]

theorem decode_isBounded_tree :
    TypeTable.build treeDocument = .ok treeTypes ∧
    (Contract.mk treeDocument treeTypes).decode ⟨3, true, 0⟩ "tree" [3, 1, 0, 0] = .ok tree ∧
    treeTypes.IsBounded 4 (.struct "tree") tree ∧ tree.nesting = 4 ∧
    ∃ s, Json.Source.parse? (Json.render tree) = some s ∧ s.nesting = 4 ∧
      s.toJson? 4 = some tree ∧ s.toJson? 3 = none := by
  have hdecode : (Contract.mk treeDocument treeTypes).decode ⟨3, true, 0⟩ "tree" [3, 1, 0, 0] =
    .ok tree := rfl
  have hview : treeTypes.view "tree" = .ok (.struct "tree") := rfl
  obtain ⟨type, htype, hbounded, -, hparse⟩ := decode_isBounded hdecode
  cases hview.symm.trans htype
  obtain ⟨s, hs, hnesting, -, -⟩ := hparse (by decide)
  refine ⟨by decide +kernel, hdecode, hbounded, rfl, s, hs, hnesting, ?_, ?_⟩
  · cases (Json.parse?_render tree).symm.trans hs
    rfl
  · exact Json.Source.toJson?_of_lt_nesting (hnesting ▸ by decide)

end Contract
end ChainKit.Abi
