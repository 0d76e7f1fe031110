import ChainKit.Proofs.Abi.Leaf.Composed
import ChainKit.Proofs.Abi.RoundTrip
import ChainKit.Proofs.Wire.Delimiting

namespace ChainKit.Abi

namespace Ty

/-- Whether a type is no extension, so that its values are not left out at the end of the data. -/
def IsLasting (type : Ty) : Prop := type.isExtension = false

instance : DecidablePred IsLasting := fun _ => inferInstanceAs (Decidable (_ = false))

end Ty

namespace Decode
set_option autoImplicit true
open Wire

theorem delimits_wire {r : Read α} (h : Delimits r) : Delimits (wire r) := h.adapt _

theorem delimits_part (step : Step) {r : Decode α} (h : Delimits r) : Delimits (part step r) :=
  h.adapt _

section

variable {item : Decode Json} {value : Ty → Decode Json}

theorem delimits_items (h : Delimits item) (i : Nat) (done : List Json) (count : Nat) :
    Delimits (items item i done count) := by
  induction count generalizing i done with
  | zero => exact Delimits.pure done
  | succ count ih =>
    apply (delimits_part (.item i) h).bind
    intro v
    exact ih (i + 1) (v :: done)

/-- A length that does not exceed the bytes left does not exceed more bytes. -/
theorem delimits_array (h : Delimits item) (limit : Nat) : Delimits (array limit item) := by
  rw [array_eq]
  apply Delimits.position
  intro offset
  apply (delimits_wire Read.isComposed_varuint.delimits).bind
  intro count r v r' hr
  by_cases hlimit : limit < count ∧ r.remaining < count
  · simp only [if_pos hlimit] at hr
    cases hr
  · have hlimit' (more : Bytes) : ¬(limit < count ∧ (r.before more).remaining < count) := by
      have hlonger : r.remaining ≤ (r.before more).remaining := by
        simp only [Reader.remaining, Reader.before, List.length_append]
        omega
      omega
    simp only [if_neg hlimit] at hr
    simp only [if_neg (hlimit' _)]
    exact ((delimits_items h 0 [] count).map fun vs => Json.arr vs.reverse) r v r' hr

theorem delimits_fields (hfs : ∀ f ∈ fs, f.type.IsLasting ∧ Delimits (value f.type))
    (done : List (String × Json)) : Delimits (fields value done fs) := by
  induction fs generalizing done with
  | nil => exact Delimits.pure done
  | cons f fs ih =>
    obtain ⟨⟨hlasting, hvalue⟩, hrest⟩ := List.forall_mem_cons.mp hfs
    have hfield : fields value done (f :: fs) = part (.field f.name) (value f.type) >>= fun v =>
        fields value (Json.insert done f.name v) fs := by
      rw [fields_cons]
      funext r
      rw [show f.type.isExtension = false from hlasting]
      rfl
    rw [hfield]
    apply (delimits_part (.field f.name) hvalue).bind
    intro v
    exact ih hrest (Json.insert done f.name v)

theorem delimits_variant {u : VariantType} (h : ∀ m ∈ u.members, Delimits (value m.type)) :
    Delimits (variant value u) := by
  apply Delimits.position
  intro offset
  apply (delimits_wire Read.isComposed_varuint.delimits).bind
  intro tag
  cases hm : u.members[tag]? with
  | none => exact Delimits.throw _
  | some m =>
    have hmember := h m (List.mem_of_getElem? hm)
    exact (delimits_part (.member m.name) hmember).map _

theorem delimits_optional (h : Delimits item) : Delimits (optional item) := by
  apply Delimits.position
  intro offset
  apply (delimits_wire Read.isComposed_byte.delimits).bind
  intro flag
  apply Delimits.ite
  · intro _
    exact Delimits.pure Json.null
  · intro _
    apply Delimits.ite
    · intro _
      exact h
    · intro _
      exact Delimits.throw _

end

/-- What is decoded as a type without extensions does not depend on the bytes behind it. -/
theorem delimits_value {t : TypeTable} (h : t.Throughout Ty.IsLasting type) (c : Config)
    (levels : Nat) : Delimits (value t c levels type) := by
  induction levels generalizing type with
  | zero =>
    apply Delimits.position
    intro offset
    exact Delimits.throw _
  | succ levels ih =>
    cases type with
    | builtin b => exact delimits_wire ((Leaf.isComposed_read c.strictBool b).delimits.map _)
    | struct name =>
      apply Delimits.map
      apply delimits_fields
      intro f hf
      have hfield := h.part (.field hf)
      exact ⟨hfield.here, ih hfield⟩
    | variant name =>
      apply delimits_variant
      intro m hm
      exact ih (h.part (.member hm))
    | array item => exact delimits_array (ih (h.part .item)) c.maxArrayLength
    | optional inner => exact delimits_optional (ih (h.part .given))
    | extension inner => cases h.here

end Decode

namespace Contract
set_option autoImplicit true

theorem decode_of_rest {c : Contract} (hview : c.types.view name = .ok type)
    (hrun : Decode.value c.types config config.levels type (.ofBytes bs) = .ok v ⟨p, rest⟩)
    (hrest : rest ≠ []) :
    c.decode config name bs = .error (.decode name ⟨[], p, .extraData rest.length⟩) := by
  have hrun : (Decode.value c.types config config.levels type).run (.ofBytes bs) =
    .ok v ⟨p, rest⟩ := hrun
  rw [decode, view_eq_ok.mpr hview]
  simp only [bind, Except.bind, hrun, Wire.Reader.isEmpty, List.isEmpty_eq_false_iff.mpr hrest]
  rfl

theorem run_append {c : Contract} (hview : c.types.view name = .ok type)
    (hlasting : c.types.Throughout Ty.IsLasting type) (hdecode : c.decode config name bs = .ok w)
    (more : Bytes) : Decode.value c.types config config.levels type (.ofBytes (bs ++ more)) =
      .ok w ⟨bs.length, more⟩ := by
  obtain ⟨p, hrun⟩ := (decode_eq_ok hview).mp hdecode
  have hdelimits := Decode.delimits_value hlasting config config.levels
  obtain ⟨⟨used, hused, hp⟩, hmore⟩ := hdelimits _ w _ hrun
  have hbs : bs = used := hused.trans (List.append_nil used)
  have hposition : p = bs.length := by
    rw [hbs]
    exact hp.trans (Nat.zero_add used.length)
  rw [← hposition]
  exact hmore more

/-- Bytes that are decoded as a type without extensions are decoded as the same value when more
follow, and only then is it found that data is left over; and none of their proper prefixes is
decoded. -/
theorem decode_append {d : Document} {t : TypeTable} (hview : t.view name = .ok type)
    (hlasting : t.Throughout Ty.IsLasting type)
    (hdecode : (Contract.mk d t).decode config name bs = .ok w) :
    (∀ more, more ≠ [] →
      Decode.value t config config.levels type (.ofBytes (bs ++ more)) =
        .ok w ⟨bs.length, more⟩ ∧
      (Contract.mk d t).decode config name (bs ++ more) =
        .error (.decode name ⟨[], bs.length, .extraData more.length⟩)) ∧
    ∀ front back, front ++ back = bs → back ≠ [] →
      ∃ e, (Contract.mk d t).decode config name front = .error e := by
  have hview : (Contract.mk d t).types.view name = .ok type := hview
  constructor
  · intro more hmore
    have hrun := run_append hview hlasting hdecode more
    exact ⟨hrun, decode_of_rest hview hrun hmore⟩
  · intro front back hbs hback
    cases hfront : (Contract.mk d t).decode config name front with
    | error e => exact ⟨e, rfl⟩
    | ok v =>
      -- What is decoded from the front leaves the back over.
      have hrun := run_append hview hlasting hfront back
      rw [hbs] at hrun
      cases hdecode.symm.trans (decode_of_rest hview hrun hback)

def rowDocument : Document :=
  { structs := [⟨"row", "", [⟨"id", "uint16"⟩, ⟨"cells", "cell[]"⟩, ⟨"next", "row?"⟩]⟩]
    variants? := some [⟨"cell", ["uint8", "string"]⟩] }

def rowTypes : TypeTable where
  structs := [⟨"row", [⟨"id", .builtin (.uint .w16)⟩, ⟨"cells", .array (.variant "cell")⟩,
    ⟨"next", .optional (.struct "row")⟩]⟩]
  variants := [⟨"cell", [⟨"uint8", .builtin (.uint .w8)⟩, ⟨"string", .builtin .string⟩]⟩]
  meanings :=
    { names := [("string", .builtin .string), ("uint8", .builtin (.uint .w8)),
        ("row?", .optional (.struct "row")), ("cell[]", .array (.variant "cell")),
        ("uint16", .builtin (.uint .w16)), ("row", .struct "row"), ("cell", .variant "cell")]
      types := [.struct "row", .variant "cell", .builtin (.uint .w16), .array (.variant "cell"),
        .optional (.struct "row"), .builtin (.uint .w8), .builtin .string] }

def row : Json :=
  .obj [("id", .ofNat 1),
    ("cells", .arr [.arr [.str "uint8", .ofNat 7], .arr [.str "string", .str "a"]]),
    ("next", .null)]

def rowBytes : Bytes := [1, 0, 2, 0, 7, 1, 1, 97, 0]

theorem decode_append_row :
    TypeTable.build rowDocument = .ok rowTypes ∧
    (Contract.mk rowDocument rowTypes).decode {} "row" rowBytes = .ok row ∧
    (Contract.mk rowDocument rowTypes).decode {} "row" (rowBytes ++ [1]) =
      .error (.decode "row" ⟨[], 9, .extraData 1⟩) ∧
    ∃ e, (Contract.mk rowDocument rowTypes).decode {} "row" [1, 0, 2, 0, 7, 1, 1, 97] =
      .error e := by
  have hdecode : (Contract.mk rowDocument rowTypes).decode {} "row" rowBytes = .ok row := rfl
  have hlasting : rowTypes.Throughout Ty.IsLasting (.struct "row") :=
    .of_closed rowTypes.meanings.types (by decide) (by decide) (by decide)
  obtain ⟨hmore, hfront⟩ := decode_append rfl hlasting hdecode
  have hextra := (hmore [1] (List.cons_ne_nil 1 [])).2
  exact ⟨by decide +kernel, hdecode, hextra, hfront _ [0] rfl (List.cons_ne_nil 0 [])⟩

end Contract
end ChainKit.Abi
