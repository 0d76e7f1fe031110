import ChainKit.Proofs.Abi.RoundTrip

namespace ChainKit.Abi

/-- Whether limits allow no more than others do. -/
structure Config.IsWithin (c c' : Config) : Prop where
  depth : c.maxDepth ≤ c'.maxDepth
  arrays : c.maxArrayLength ≤ c'.maxArrayLength
  truth : c'.strictBool → c.strictBool

namespace Decode
set_option autoImplicit true
open Wire

/-- Whether each success of a read is one of another. -/
def IsPartOf (x y : EStateM ε Reader α) : Prop :=
  ∀ r a r', x r = .ok a r' → y r = .ok a r'

namespace IsPartOf

theorem refl (x : EStateM ε Reader α) : IsPartOf x x := fun _ _ _ h => h

theorem throw (e : ε) (y : EStateM ε Reader α) : IsPartOf (throw e) y := by
  intro r a r' h
  cases h

theorem bind {x y : EStateM ε Reader α} {f g : α → EStateM ε Reader β} (h : IsPartOf x y)
    (hf : ∀ a, IsPartOf (f a) (g a)) : IsPartOf (x >>= f) (y >>= g) := by
  intro r b r'' hr
  obtain ⟨a, r', hx, hr⟩ := bind_eq_ok hr
  rw [bind_ok (h r a r' hx)]
  exact hf a r' b r'' hr

theorem behind {x : EStateM ε Reader α} {f g : α → EStateM ε Reader β}
    (hf : ∀ a, IsPartOf (f a) (g a)) : IsPartOf (x >>= f) (x >>= g) := (refl x).bind hf

theorem map {x y : EStateM ε Reader α} (f : α → β) (h : IsPartOf x y) :
    IsPartOf (x >>= fun a => pure (f a)) (y >>= fun a => pure (f a)) := h.bind fun _ => refl _

theorem adapt {x y : EStateM ε Reader α} (g : ε → ε') (h : IsPartOf x y) :
    IsPartOf (EStateM.adaptExcept g x) (EStateM.adaptExcept g y) := by
  intro r a r' hr
  simp only [EStateM.adaptExcept] at hr ⊢
  split at hr
  · cases hr
  · cases hr
    simp only [h _ _ _ ‹_›]

theorem ite {c : Prop} [Decidable c] {x x' y y' : EStateM ε Reader α} (hx : IsPartOf x x')
    (hy : IsPartOf y y') : IsPartOf (if c then x else y) (if c then x' else y') := by
  by_cases hc : c
  · simp only [if_pos hc, hx]
  · simp only [if_neg hc, hy]

theorem check {c c' : Prop} [Decidable c] [Decidable c'] {x y : EStateM ε Reader α} (hc : c → c')
    (e : ε) : IsPartOf (if c then x else MonadExcept.throw e) (if c' then x else y) := by
  by_cases h : c
  · simp only [if_pos h, if_pos (hc h), refl]
  · simp only [if_neg h]
    exact throw e _

end IsPartOf

/-- Strictness only refuses truth values. -/
theorem isPartOf_read {strict strict' : Bool} (h : strict' → strict) (b : Builtin) :
    IsPartOf (Leaf.read strict b) (Leaf.read strict' b) := by
  cases b with
  | bool =>
    apply IsPartOf.map
    apply IsPartOf.behind
    intro offset
    apply IsPartOf.behind
    intro byte
    apply IsPartOf.ite
    · exact IsPartOf.refl _
    · apply IsPartOf.check
      intro hbyte
      exact hbyte.imp_right fun hstrict => by
        cases strict' with
        | false => rfl
        | true => simp [h rfl] at hstrict
  | _ => exact IsPartOf.refl _

section

variable {item item' : Decode Json} {value value' : Ty → Decode Json}

theorem isPartOf_items (h : IsPartOf item item') (i : Nat) (done : List Json) (count : Nat) :
    IsPartOf (items item i done count) (items item' i done count) := by
  induction count generalizing i done with
  | zero => exact IsPartOf.refl _
  | succ count ih =>
    apply (h.adapt _).bind
    intro v
    exact ih (i + 1) (v :: done)

theorem isPartOf_array (hlimit : limit ≤ limit') (h : IsPartOf item item') :
    IsPartOf (array limit item) (array limit' item') := by
  rw [array_eq, array_eq]
  apply IsPartOf.behind
  intro offset
  apply IsPartOf.behind
  intro count r v r' hr
  by_cases hcount : limit < count ∧ r.remaining < count
  · simp only [if_pos hcount] at hr
    cases hr
  · have hcount' : ¬(limit' < count ∧ r.remaining < count) := by omega
    simp only [if_neg hcount] at hr
    simp only [if_neg hcount']
    exact (isPartOf_items h 0 [] count).map (fun vs => Json.arr vs.reverse) r v r' hr

theorem isPartOf_fields (h : ∀ type, IsPartOf (value type) (value' type))
    (done : List (String × Json)) (fs : List Field) :
    IsPartOf (fields value done fs) (fields value' done fs) := by
  induction fs generalizing done with
  | nil => exact IsPartOf.refl _
  | cons f fs ih =>
    apply IsPartOf.behind
    intro ended
    apply IsPartOf.ite
    · exact ih done
    · apply ((h f.type).adapt _).bind
      intro v
      exact ih (Json.insert done f.name v)

theorem isPartOf_variant (h : ∀ type, IsPartOf (value type) (value' type)) (u : VariantType) :
    IsPartOf (variant value u) (variant value' u) := by
  apply IsPartOf.behind
  intro offset
  apply IsPartOf.behind
  intro tag
  cases u.members[tag]? with
  | none => exact IsPartOf.refl _
  | some m => exact ((h m.type).adapt _).map _

theorem isPartOf_optional (h : IsPartOf item item') : IsPartOf (optional item) (optional item') := by
  apply IsPartOf.behind
  intro offset
  apply IsPartOf.behind
  intro flag
  apply IsPartOf.ite
  · exact IsPartOf.refl _
  · exact h.ite (IsPartOf.refl _)

theorem isPartOf_extension (h : IsPartOf item item') :
    IsPartOf (extension item) (extension item') := by
  apply IsPartOf.behind
  intro ended
  exact (IsPartOf.refl _).ite h

end

theorem isPartOf_value {t : TypeTable} {c c' : Config} (h : c.IsWithin c')
    (hlevels : levels ≤ levels') (type : Ty) :
    IsPartOf (value t c levels type) (value t c' levels' type) := by
  induction levels generalizing levels' type with
  | zero =>
    intro r v r' hr
    cases hr
  | succ levels ih =>
    cases levels' with
    | zero => exact absurd hlevels (Nat.not_succ_le_zero levels)
    | succ levels' =>
      have hpart : ∀ type, IsPartOf (value t c levels type) (value t c' levels' type) :=
        fun type => ih (Nat.le_of_succ_le_succ hlevels) type
      cases type with
      | builtin b => exact ((isPartOf_read h.truth b).map Leaf.toJson).adapt _
      | struct name => exact (isPartOf_fields hpart [] _).map Json.obj
      | variant name => exact isPartOf_variant hpart _
      | array item => exact isPartOf_array h.arrays (hpart item)
      | optional inner => exact isPartOf_optional (hpart inner)
      | extension inner => exact isPartOf_extension (hpart inner)

end Decode

namespace Encode
set_option autoImplicit true

/-- Whether one result is another unless it is an error. -/
def IsPartOf (x y : Except ε α) : Prop := ∀ a, x = .ok a → y = .ok a

namespace IsPartOf

theorem refl (x : Except ε α) : IsPartOf x x := fun _ h => h

theorem error (e : ε) (y : Except ε α) : IsPartOf (.error e) y := by
  intro a h
  cases h

theorem bind {x y : Except ε α} {f g : α → Except ε β} (h : IsPartOf x y)
    (hf : ∀ a, IsPartOf (f a) (g a)) : IsPartOf (x >>= f) (y >>= g) := by
  intro b hb
  obtain ⟨a, ha, hb⟩ := Result.bind_eq_ok.mp hb
  exact Result.bind_eq_ok.mpr ⟨a, h a ha, hf a b hb⟩

theorem map {x y : Except ε α} (f : α → β) (h : IsPartOf x y) :
    IsPartOf (x >>= fun a => pure (f a)) (y >>= fun a => pure (f a)) := h.bind fun _ => refl _

theorem part {x y : Except EncodeError Bytes} (step : Step) (h : IsPartOf x y) :
    IsPartOf (Encode.part step x) (Encode.part step y) := by
  intro a ha
  exact Result.mapError_eq_ok.mpr (h a (Result.mapError_eq_ok.mp ha))

end IsPartOf

section

variable {item item' : Encoder} {value value' : Ty → Encoder}

theorem isPartOf_items (h : ∀ v, IsPartOf (item v) (item' v)) (i : Nat) (vs : List Json) :
    IsPartOf (items item i vs) (items item' i vs) := by
  induction vs generalizing i with
  | nil => exact IsPartOf.refl _
  | cons v vs ih =>
    apply ((h v).part (.item i)).bind
    intro first
    exact (ih (i + 1)).map fun rest => first ++ rest

theorem isPartOf_array (h : ∀ v, IsPartOf (item v) (item' v)) (v : Json) :
    IsPartOf (array item v) (array item' v) := by
  cases v with
  | arr vs =>
    simp only [array]
    split
    · exact IsPartOf.error _ _
    · exact (isPartOf_items h 0 vs).map fun rest => Wire.varuint vs.length ++ rest
  | _ => exact IsPartOf.refl _

theorem isPartOf_fields (h : ∀ type v, IsPartOf (value type v) (value' type v))
    (members : List (String × Json)) (absent : Option String) (fs : List Field) :
    IsPartOf (fields value members absent fs) (fields value' members absent fs) := by
  induction fs generalizing absent with
  | nil => exact IsPartOf.refl _
  | cons f fs ih =>
    obtain ⟨name, type⟩ := f
    cases hm : Json.member? members name with
    | some v =>
      cases absent with
      | some e =>
        simp only [fields, hm]
        exact IsPartOf.refl _
      | none =>
        simp only [fields, hm]
        apply ((h type v).part (.field name)).bind
        intro first
        exact (ih none).map fun rest => first ++ rest
    | none =>
      cases type with
      | extension inner =>
        simp only [fields, hm]
        exact ih _
      | optional inner =>
        cases absent with
        | some e =>
          simp only [fields, hm]
          exact IsPartOf.refl _
        | none =>
          simp only [fields, hm]
          exact (ih none).map fun rest => 0 :: rest
      | _ =>
        cases absent with
        | some e =>
          simp only [fields, hm]
          exact IsPartOf.refl _
        | none =>
          simp only [fields, hm]
          exact IsPartOf.refl _

theorem isPartOf_struct (h : ∀ type v, IsPartOf (value type v) (value' type v)) (s : StructType)
    (v : Json) : IsPartOf (struct value s v) (struct value' s v) := by
  cases v with
  | obj members => exact isPartOf_fields h members none s.fields
  | _ => exact IsPartOf.refl _

theorem isPartOf_variant (h : ∀ type v, IsPartOf (value type v) (value' type v)) (u : VariantType)
    (v : Json) : IsPartOf (variant value u v) (variant value' u v) := by
  unfold variant
  split
  · rename_i tag inner
    cases u.members.findIdx? fun m => m.name == tag with
    | none => exact IsPartOf.refl _
    | some i =>
      simp only []
      split
      · exact IsPartOf.error _ _
      · exact ((h _ inner).part (.member tag)).map fun rest => Wire.varuint i ++ rest
  · exact IsPartOf.refl _

end

theorem isPartOf_value {t : TypeTable} (hlevels : levels ≤ levels') (type : Ty) (v : Json) :
    IsPartOf (value t levels type v) (value t levels' type v) := by
  induction levels generalizing levels' type v with
  | zero => exact IsPartOf.error _ _
  | succ levels ih =>
    cases levels' with
    | zero => exact absurd hlevels (Nat.not_succ_le_zero levels)
    | succ levels' =>
      have hpart : ∀ type v, IsPartOf (value t levels type v) (value t levels' type v) :=
        fun type v => ih (Nat.le_of_succ_le_succ hlevels) type v
      cases type with
      | builtin b => exact IsPartOf.refl _
      | struct name => exact isPartOf_struct hpart _ v
      | variant name => exact isPartOf_variant hpart _ v
      | array item => exact isPartOf_array (hpart item) v
      | optional inner =>
        cases v with
        | null => exact IsPartOf.refl _
        | _ => exact (hpart inner _).map fun rest => 1 :: rest
      | extension inner => exact hpart inner v

end Encode

namespace Contract
set_option autoImplicit true

variable {c : Contract}

theorem exists_view_of_decode (h : c.decode config name bs = .ok w) :
    ∃ type, c.types.view name = .ok type := by
  obtain ⟨type, hview, -⟩ := Result.bind_eq_ok.mp h
  exact ⟨type, view_eq_ok.mp hview⟩

/-- Wider limits change no result: what is decoded or encoded within some limits is so within wider
ones, to the same value and the same bytes. -/
theorem ok_of_isWithin (h : config.IsWithin config') :
    (∀ bs w, c.decode config name bs = .ok w → c.decode config' name bs = .ok w) ∧
    ∀ v bs, c.encode config name v = .ok bs → c.encode config' name v = .ok bs := by
  have hlevels : config.levels ≤ config'.levels := Nat.succ_le_succ h.depth
  constructor
  · intro bs w hdecode
    obtain ⟨type, hview⟩ := exists_view_of_decode hdecode
    obtain ⟨p, hrun⟩ := (decode_eq_ok hview).mp hdecode
    exact (decode_eq_ok hview).mpr ⟨p, Decode.isPartOf_value h hlevels type _ _ _ hrun⟩
  · intro v bs hencode
    obtain ⟨type, hview, hencode⟩ := Result.bind_eq_ok.mp hencode
    have hvalue := Result.mapError_eq_ok.mp hencode
    refine Result.bind_eq_ok.mpr ⟨type, hview, ?_⟩
    exact Result.mapError_eq_ok.mpr (Encode.isPartOf_value hlevels type v bs hvalue)

theorem ok_of_isWithin_note :
    Config.IsWithin ⟨2, true, 1⟩ ⟨64, false, 65536⟩ ∧
    (Contract.mk noteDocument noteTypes).decode ⟨1, true, 1⟩ "note" noteBytes ≠
      .ok noteContent.toJson ∧
    (Contract.mk noteDocument noteTypes).decode ⟨2, true, 1⟩ "note" noteBytes =
      .ok noteContent.toJson ∧
    (Contract.mk noteDocument noteTypes).decode ⟨64, false, 65536⟩ "note" noteBytes =
      .ok noteContent.toJson ∧
    (Contract.mk noteDocument noteTypes).encode ⟨64, false, 65536⟩ "note" note = .ok noteBytes := by
  have hwithin : Config.IsWithin ⟨2, true, 1⟩ ⟨64, false, 65536⟩ := ⟨by decide, by decide, nofun⟩
  have hnone : (Contract.mk noteDocument noteTypes).decode ⟨1, true, 1⟩ "note" noteBytes =
    .error (.decode "note" ⟨[.field "tags", .item 0], 3, .tooDeep⟩) := rfl
  have hdecode : (Contract.mk noteDocument noteTypes).decode ⟨2, true, 1⟩ "note" noteBytes =
    .ok noteContent.toJson := rfl
  have hencode : (Contract.mk noteDocument noteTypes).encode ⟨2, true, 1⟩ "note" note =
    .ok noteBytes := rfl
  refine ⟨hwithin, ?_, hdecode, ?_, ?_⟩
  · rw [hnone]
    exact nofun
  · exact (ok_of_isWithin hwithin).1 noteBytes _ hdecode
  · exact (ok_of_isWithin hwithin).2 note _ hencode

end Contract
end ChainKit.Abi
