import ChainKit.Abi.Codec.Encode
import ChainKit.Proofs.Abi.Reaches

namespace ChainKit.Abi.Encode
set_option autoImplicit true
open Content

theorem toOption_part (step : Step) (r : Except EncodeError Bytes) :
    (part step r).toOption = r.toOption := Result.toOption_mapError _ r

section

variable {item : Encoder} {item? : Json → Option Content}

theorem toOption_items (h : ∀ v, (item v).toOption = (item? v).map bytes) (i : Nat)
    (vs : List Json) : (items item i vs).toOption = (vs.mapM item?).map itemsBytes := by
  induction vs generalizing i with
  | nil => rfl
  | cons v vs ih =>
    rw [items, Result.toOption_bind, toOption_part, h, List.mapM_cons]
    cases item? v with
    | none => rfl
    | some c =>
      simp only [Option.map_some, Option.bind_some, Result.toOption_bind, ih]
      cases vs.mapM item? with
      | none => rfl
      | some cs => rfl

theorem toOption_array (h : ∀ v, (item v).toOption = (item? v).map bytes) (v : Json) :
    (array item v).toOption = (arrayOfJson? item? v).map bytes := by
  cases v with
  | arr vs =>
    simp only [array, arrayOfJson?]
    split
    · rfl
    · change (items item 0 vs >>= fun bs => pure (Wire.varuint vs.length ++ bs)).toOption = _
      rw [Result.toOption_bind, toOption_items h]
      cases hcs : vs.mapM item? with
      | none => rfl
      | some cs =>
        simp only [Option.map_some, Option.bind_some, bytes, Result.length_of_mapM hcs]
        rfl
  | _ => rfl

end

section

variable {value : Ty → Encoder} {value? : Ty → Json → Option Content}

theorem toOption_fields (h : ∀ type v, (value type v).toOption = (value? type v).map bytes)
    (members : List (String × Json)) (behind : Option String) (fs : List Field) :
    (fields value members behind fs).toOption =
      (fieldsOfJson? value? members behind.isSome fs).map fieldsBytes := by
  induction fs generalizing behind with
  | nil => cases behind <;> rfl
  | cons f fs ih =>
    obtain ⟨name, type⟩ := f
    cases hm : Json.member? members name with
    | some v =>
      cases behind with
      | some e => simp only [fields, fieldsOfJson?, hm]; rfl
      | none =>
        simp only [fields, fieldsOfJson?, hm, Option.isSome_none, Result.toOption_bind,
          toOption_part, h]
        cases value? type v with
        | none => rfl
        | some c =>
          simp only [Option.map_some, Option.bind_some, ih, Option.isSome_none]
          cases fieldsOfJson? value? members false fs with
          | none => rfl
          | some cs => rfl
    | none =>
      cases type with
      | extension inner =>
        have hb : (behind.or (some name)).isSome = true := by cases behind <;> rfl
        simp only [fields, fieldsOfJson?, hm, ih, hb]
        cases fieldsOfJson? value? members true fs with
        | none => rfl
        | some cs => rfl
      | optional inner =>
        cases behind with
        | some e => simp only [fields, fieldsOfJson?, hm]; rfl
        | none =>
          simp only [fields, fieldsOfJson?, hm, Option.isSome_none, Result.toOption_bind, ih]
          cases fieldsOfJson? value? members false fs with
          | none => rfl
          | some cs => rfl
      | _ => cases behind <;> simp only [fields, fieldsOfJson?, hm] <;> rfl

theorem toOption_struct (h : ∀ type v, (value type v).toOption = (value? type v).map bytes)
    (s : StructType) (v : Json) :
    (struct value s v).toOption = (structOfJson? value? s.fields v).map bytes := by
  cases v with
  | obj members =>
    rw [struct, structOfJson?, toOption_fields h, Option.map_map]
    rfl
  | _ => rfl

theorem toOption_variant (h : ∀ type v, (value type v).toOption = (value? type v).map bytes)
    (u : VariantType) (v : Json) :
    (variant value u v).toOption = (variantOfJson? value? u.members v).map bytes := by
  unfold variant
  split
  · rename_i tag inner
    simp only [variantOfJson?]
    cases hi : u.members.findIdx? fun m => m.name == tag with
    | none => rfl
    | some i =>
      obtain ⟨m, hm, -⟩ := Result.getElem?_of_findIdx? hi
      simp only [hm, Option.map_some, Option.getD_some, Option.bind_eq_bind, Option.bind_some]
      split
      · rfl
      · change (part (.member tag) (value m.type inner) >>= fun bs =>
          pure (Wire.varuint i ++ bs)).toOption = _
        rw [Result.toOption_bind, toOption_part, h]
        cases value? m.type inner with
        | none => rfl
        | some c => rfl
  · rename_i hne
    unfold variantOfJson?
    split
    · exact absurd rfl (hne _ _)
    · rfl

end

/-- A JSON value is encoded as the wire form of its content. -/
theorem toOption_value (t : TypeTable) (levels : Nat) (type : Ty) (v : Json) :
    (value t levels type v).toOption = (ofJson? t levels type v).map bytes := by
  induction levels generalizing type v with
  | zero => rfl
  | succ levels ih =>
    cases type with
    | builtin b =>
      simp only [value, ofJson?]
      rw [Result.toOption_mapError, Builtin.encode, Result.toOption_map, Option.map_map]
      rfl
    | struct name =>
      simp only [value, ofJson?]
      exact toOption_struct ih _ v
    | variant name =>
      simp only [value, ofJson?]
      exact toOption_variant ih _ v
    | array item =>
      simp only [value, ofJson?]
      exact toOption_array (ih item) v
    | optional inner =>
      cases v with
      | null => rfl
      | _ =>
        simp only [value, ofJson?, optionalOfJson?, Result.toOption_bind, ih]
        cases ofJson? t levels inner _ with
        | none => rfl
        | some c => rfl
    | extension inner =>
      simp only [value, ofJson?, ih, Option.map_map]
      rfl

theorem value_eq_ok {t : TypeTable} : value t levels type v = .ok bs ↔
    ∃ c, ofJson? t levels type v = some c ∧ c.bytes = bs := by
  rw [← Result.toOption_eq_some, toOption_value, Option.map_eq_some_iff]

end ChainKit.Abi.Encode
