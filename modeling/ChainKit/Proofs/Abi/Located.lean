import ChainKit.Proofs.Abi.Items
import ChainKit.Proofs.Abi.Leaf.Composed
import ChainKit.Proofs.Wire.Located

namespace ChainKit.Abi

namespace TypeTable
set_option autoImplicit true

/-- Whether steps lead from a type into one of its parts, into which optional values and extensions
take no step. -/
inductive Walks (t : TypeTable) : Ty → List Step → Prop where
  | here : Walks t type []
  | field : f ∈ t.fieldsOf name → Walks t f.type steps →
      Walks t (.struct name) (.field f.name :: steps)
  | member : m ∈ t.membersOf name → Walks t m.type steps →
      Walks t (.variant name) (.member m.name :: steps)
  | item (i : Nat) : Walks t type steps → Walks t (.array type) (.item i :: steps)
  | given : Walks t type steps → Walks t (.optional type) steps
  | present : Walks t type steps → Walks t (.extension type) steps

end TypeTable

namespace Decode
set_option autoImplicit true
open Wire

section

variable {n : Nat} {P : DecodeError → Prop} {item : Decode Json} {value : Ty → Decode Json}

/-- Whether failures of the value itself at places in data of `n` bytes have a property. -/
def HoldsAtRoot (n : Nat) (P : DecodeError → Prop) : Prop :=
  ∀ offset ≤ n, ∀ fault, P ⟨[], offset, fault⟩

theorem located_wire {r : Read α} (hroot : HoldsAtRoot n P) (h : Located n r (Error.IsIn n)) :
    Located n (wire r) P := h.adapt fun e he => hroot e.offset he (.wire e.fault)

theorem located_items (h : ∀ i, Located n (part (.item i) item) P) (i : Nat) (done : List Json)
    (count : Nat) : Located n (items item i done count) P := by
  induction count generalizing i done with
  | zero => exact Located.pure done
  | succ count ih =>
    apply (h i).bind
    intro v
    exact ih (i + 1) (v :: done)

theorem located_array (hroot : HoldsAtRoot n P) (h : ∀ i, Located n (part (.item i) item) P)
    (limit : Nat) : Located n (array limit item) P := by
  rw [array_eq]
  apply Located.position
  intro offset hoffset
  apply (located_wire hroot Read.isComposed_varuint.located).bind
  intro count r hr
  by_cases hlimit : limit < count ∧ r.remaining < count
  · simp only [if_pos hlimit]
    exact Located.throw (hroot offset hoffset _) r hr
  · simp only [if_neg hlimit]
    exact (located_items h 0 [] count).map (fun vs => Json.arr vs.reverse) r hr

theorem located_fields (h : ∀ f ∈ fs, Located n (part (.field f.name) (value f.type)) P)
    (done : List (String × Json)) : Located n (fields value done fs) P := by
  induction fs generalizing done with
  | nil => exact Located.pure done
  | cons f fs ih =>
    obtain ⟨hf, hfs⟩ := List.forall_mem_cons.mp h
    rw [fields_cons]
    intro r hr
    by_cases hended : f.type.isExtension && r.isEmpty
    · simp only [if_pos hended]
      exact ih hfs done r hr
    · simp only [if_neg hended]
      exact (hf.bind fun v => ih hfs (Json.insert done f.name v)) r hr

theorem located_variant {u : VariantType} (hroot : HoldsAtRoot n P)
    (h : ∀ m ∈ u.members, Located n (part (.member m.name) (value m.type)) P) :
    Located n (variant value u) P := by
  apply Located.position
  intro offset hoffset
  apply (located_wire hroot Read.isComposed_varuint.located).bind
  intro tag
  cases hm : u.members[tag]? with
  | none => exact Located.throw (hroot offset hoffset _)
  | some m => exact (h m (List.mem_of_getElem? hm)).map _

theorem located_optional (hroot : HoldsAtRoot n P) (h : Located n item P) :
    Located n (optional item) P := by
  apply Located.position
  intro offset hoffset
  apply (located_wire hroot Read.isComposed_byte.located).bind
  intro flag
  apply Located.ite
  · exact Located.pure Json.null
  · apply Located.ite
    · exact h
    · exact Located.throw (hroot offset hoffset _)

theorem located_extension (h : Located n item P) : Located n (extension item) P := by
  intro r hr
  rw [extension, atEnd_bind]
  split
  · exact Located.pure Json.null r hr
  · exact h r hr

end

/-- Whether an error is at a place in data of `n` bytes, and in a part of a type. -/
structure IsAt (n : Nat) (t : TypeTable) (type : Ty) (e : DecodeError) : Prop where
  offset_le : e.offset ≤ n
  walks : t.Walks type e.steps

theorem holdsAtRoot_isAt (n : Nat) (t : TypeTable) (type : Ty) : HoldsAtRoot n (IsAt n t type) :=
  fun _ hoffset _ => ⟨hoffset, .here⟩

/-- What is decoded moves forward through the data, and fails at a place in it and in a part of the
type. -/
theorem located_value (t : TypeTable) (c : Config) (n levels : Nat) (type : Ty) :
    Located n (value t c levels type) (IsAt n t type) := by
  induction levels generalizing type with
  | zero =>
    apply Located.position
    intro offset hoffset
    exact Located.throw (holdsAtRoot_isAt n t type offset hoffset _)
  | succ levels ih =>
    have hroot := holdsAtRoot_isAt n t type
    cases type with
    | builtin b => exact located_wire hroot ((Leaf.isComposed_read c.strictBool b).located.map _)
    | struct name =>
      apply Located.map
      apply located_fields
      intro f hf
      exact (ih f.type).adapt fun e he => ⟨he.offset_le, .field hf he.walks⟩
    | variant name =>
      apply located_variant hroot
      intro m hm
      exact (ih m.type).adapt fun e he => ⟨he.offset_le, .member hm he.walks⟩
    | array item =>
      apply located_array hroot
      intro i
      exact (ih item).adapt fun e he => ⟨he.offset_le, .item i he.walks⟩
    | optional inner =>
      apply located_optional hroot
      exact (ih inner).mono fun e he => ⟨he.offset_le, .given he.walks⟩
    | extension inner =>
      apply located_extension
      exact (ih inner).mono fun e he => ⟨he.offset_le, .present he.walks⟩

end Decode

namespace Contract
set_option autoImplicit true
open Wire

theorem isAt_of_decode {c : Contract} (hview : c.types.view name = .ok type)
    (hdecode : c.decode config name bs = .error e) :
    ∃ failure, e = .decode name failure ∧ Decode.IsAt bs.length c.types type failure := by
  obtain ⟨hleads, hfails⟩ := Decode.located_value c.types config bs.length config.levels type
    (.ofBytes bs) (Reader.size_ofBytes bs)
  rw [decode, view_eq_ok.mpr hview] at hdecode
  simp only [bind, Except.bind, EStateM.run] at hdecode
  cases hr : Decode.value c.types config config.levels type (.ofBytes bs) with
  | error failure r =>
    rw [hr] at hdecode
    cases hdecode
    exact ⟨failure, rfl, hfails failure r hr⟩
  | ok v r =>
    rw [hr] at hleads hdecode
    simp only at hdecode
    split at hdecode
    · cases hdecode
    · cases hdecode
      exact ⟨_, rfl, hleads.rest_eq.1, .here⟩

/-- Failures are located. Whatever is asked of a reader, it stays in its data and never moves back,
and a failing request for a fixed number of bytes leaves it where it is. When bytes are not decoded
as a type of a document, the error is one of decoding, at a place in the bytes, and its path leads
from the requested name into a part of the type. -/
theorem failures_located :
    (∀ (data : Bytes) (requests more : List Request),
      let r := (Reader.ofBytes data).after requests
      r.position ≤ data.length ∧ r.rest = data.drop r.position ∧
        r.position ≤ (r.after more).position) ∧
    (∀ (request : Request) n r e r', request.width? = some n → request.run r = .error e r' →
      r' = r ∧ e = ⟨r.position, .endOfData n r.remaining⟩) ∧
    ∀ d t name type config bs e, TypeTable.build d = .ok t → t.view name = .ok type →
      (Contract.mk d t).decode config name bs = .error e →
      ∃ failure, e = .decode name failure ∧ failure.offset ≤ bs.length ∧
        t.Walks type failure.steps ∧
        Step.path name failure.steps = name ++ Step.trail failure.steps := by
  refine ⟨?_, ?_, ?_⟩
  · intro data requests more
    obtain ⟨hposition, hrest⟩ := ((Reader.ofBytes data).leadsTo_after requests).rest_eq
    exact ⟨hposition, hrest, (Reader.leadsTo_after _ more).position_le⟩
  · intro request n r e r' hwidth hrun
    exact (Request.isSized_run hwidth).eq_of_error hrun
  · intro d t name type config bs e hbuild hview hdecode
    obtain ⟨failure, he, hat⟩ := isAt_of_decode (c := ⟨d, t⟩) hview hdecode
    have hname : name ≠ "" := TypeTable.ne_empty_of_view hbuild hview
    exact ⟨failure, he, hat.offset_le, hat.walks, Step.path_eq hname failure.steps⟩

theorem failures_located_order :
    TypeTable.build orderDocument = .ok orderTypes ∧
    (Contract.mk orderDocument orderTypes).decode {} "order" [7, 2, 0, 2, 1, 2, 0, 9] =
      .error (.decode "order" ⟨[.field "lines", .item 1, .member "item", .field "code"], 7,
        .wire (.endOfData 2 1)⟩) ∧
    orderTypes.Walks (.struct "order") [.field "lines", .item 1, .member "item", .field "code"] ∧
    Step.path "order" [.field "lines", .item 1, .member "item", .field "code"] =
      "order.lines[1]<item>.code" ∧
    (Request.bytes 4).run ((Reader.ofBytes [1, 2, 3]).after [.blob 2]) =
      .error ⟨2, .endOfData 4 1⟩ ⟨2, [3]⟩ := by
  have hbuild : TypeTable.build orderDocument = .ok orderTypes := by decide +kernel
  have hview : orderTypes.view "order" = .ok (.struct "order") := rfl
  have hdecode : (Contract.mk orderDocument orderTypes).decode {} "order" [7, 2, 0, 2, 1, 2, 0, 9] =
    .error (.decode "order" ⟨[.field "lines", .item 1, .member "item", .field "code"], 7,
      .wire (.endOfData 2 1)⟩) := rfl
  obtain ⟨-, hrequest, hfailure⟩ := failures_located
  obtain ⟨failure, he, -, hwalks, hpath⟩ := hfailure _ _ _ _ _ _ _ hbuild hview hdecode
  cases he
  refine ⟨hbuild, hdecode, hwalks, hpath, ?_⟩
  cases hrun : (Request.bytes 4).run ((Reader.ofBytes [1, 2, 3]).after [.blob 2]) with
  | ok a r => cases hrun
  | error e r =>
    obtain ⟨rfl, rfl⟩ := hrequest _ 4 _ _ _ rfl hrun
    rfl

end Contract
end ChainKit.Abi
