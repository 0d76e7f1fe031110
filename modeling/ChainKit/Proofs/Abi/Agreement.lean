import ChainKit.Proofs.Abi.RoundTrip

namespace ChainKit.Abi

namespace TypeTable
set_option autoImplicit true

/-- Whether two JSON values agree on all that a type declares. Objects for a struct may have their
members in any order, and any members that are no fields; so may objects for an extended asset. What
the type does not look into, such as a value of the wrong kind, has to be the same. -/
inductive Agree (t : TypeTable) : Ty → Json → Json → Prop where
  | same : Agree t type v v
  | extendedAsset :
      Json.member? ms "quantity" = Json.member? ms' "quantity" →
      Json.member? ms "contract" = Json.member? ms' "contract" →
      Agree t (.builtin .extendedAsset) (.obj ms) (.obj ms')
  | struct :
      (∀ f ∈ t.fieldsOf name, Json.member? ms f.name = none ↔ Json.member? ms' f.name = none) →
      (∀ f ∈ t.fieldsOf name, ∀ v v', Json.member? ms f.name = some v →
        Json.member? ms' f.name = some v' → Agree t f.type v v') →
      Agree t (.struct name) (.obj ms) (.obj ms')
  | variant :
      (∀ m, (t.membersOf name).find? (fun m => m.name == tag) = some m → Agree t m.type v v') →
      Agree t (.variant name) (.arr [.str tag, v]) (.arr [.str tag, v'])
  | array : vs.length = vs'.length →
      (∀ (i : Nat) v v', vs[i]? = some v → vs'[i]? = some v' → Agree t item v v') →
      Agree t (.array item) (.arr vs) (.arr vs')
  | optional {inner : Ty} : Agree t inner v v' → Agree t (.optional inner) v v'
  | extension {inner : Ty} : Agree t inner v v' → Agree t (.extension inner) v v'

/-- An optional value without value agrees with no other. -/
theorem Agree.null_iff {t : TypeTable} (h : t.Agree type v v') : v = .null ↔ v' = .null := by
  induction h with
  | same => exact Iff.rfl
  | extendedAsset => exact ⟨nofun, nofun⟩
  | struct => exact ⟨nofun, nofun⟩
  | variant => exact ⟨nofun, nofun⟩
  | array => exact ⟨nofun, nofun⟩
  | optional _ ih => exact ih
  | extension _ ih => exact ih

theorem Agree.of_members {t : TypeTable}
    (h : ∀ f ∈ t.fieldsOf name, Json.member? ms f.name = Json.member? ms' f.name) :
    t.Agree (.struct name) (.obj ms) (.obj ms') := by
  apply Agree.struct
  · intro f hf
    rw [h f hf]
  · intro f hf v v' hv hv'
    rw [h f hf] at hv
    cases hv.symm.trans hv'
    exact .same

end TypeTable

namespace Encode
set_option autoImplicit true

section

variable {value : Ty → Encoder}

theorem items_agree {item : Encoder} (hlength : vs.length = vs'.length)
    (h : ∀ (i : Nat) v v', vs[i]? = some v → vs'[i]? = some v' → item v = item v') (i : Nat) :
    items item i vs = items item i vs' := by
  induction vs generalizing vs' i with
  | nil =>
    cases vs' with
    | nil => rfl
    | cons v' vs' => cases hlength
  | cons v vs ih =>
    cases vs' with
    | nil => cases hlength
    | cons v' vs' =>
      have hfirst : item v = item v' := h 0 v v' rfl rfl
      have hrest : ∀ i, items item i vs = items item i vs' :=
        ih (Nat.succ.inj hlength) fun i v v' hv hv' => h (i + 1) v v' hv hv'
      simp only [items, hfirst, hrest]

theorem fields_agree (h : ∀ f ∈ fs, (Json.member? ms f.name).map (value f.type) =
      (Json.member? ms' f.name).map (value f.type)) (absent : Option String) :
    fields value ms absent fs = fields value ms' absent fs := by
  induction fs generalizing absent with
  | nil => rfl
  | cons f fs ih =>
    obtain ⟨hf, hfs⟩ := List.forall_mem_cons.mp h
    obtain ⟨name, type⟩ := f
    cases hm : Json.member? ms name with
    | none =>
      have hm' : Json.member? ms' name = none := by
        rw [hm] at hf
        exact Option.map_eq_none_iff.mp hf.symm
      cases type with
      | extension inner => simp only [fields, hm, hm', ih hfs]
      | _ => cases absent <;> simp only [fields, hm, hm', ih hfs]
    | some v =>
      rw [hm] at hf
      obtain ⟨v', hm', hv⟩ := Option.map_eq_some_iff.mp hf.symm
      cases absent with
      | none => simp only [fields, hm, hm', hv, ih hfs]
      | some e => simp only [fields, hm, hm']

/-- A variant looks into the value only as the first member that its tag names. -/
theorem variant_agree {u : VariantType}
    (h : ∀ m, u.members.find? (fun m => m.name == tag) = some m → value m.type v = value m.type v') :
    variant value u (.arr [.str tag, v]) = variant value u (.arr [.str tag, v']) := by
  cases hi : u.members.findIdx? fun m => m.name == tag with
  | none => simp only [variant, hi]
  | some i =>
    obtain ⟨m, hm, -⟩ := Result.getElem?_of_findIdx? hi
    have hvalue := h m ((Result.find?_of_findIdx? hi).trans hm)
    simp only [variant, hi, hm, Option.map_some, Option.getD_some, hvalue]

end

theorem value_optional {t : TypeTable} {inner : Ty} (h : v ≠ .null) :
    value t (levels + 1) (.optional inner) v =
      value t levels inner v >>= fun bs => pure (1 :: bs) := by
  cases v with
  | null => exact absurd rfl h
  | _ => rfl

theorem value_agree {t : TypeTable} (h : t.Agree type v v') (levels : Nat) :
    value t levels type v = value t levels type v' := by
  induction levels generalizing type v v' with
  | zero => rfl
  | succ levels ih =>
    cases h with
    | same => rfl
    | extendedAsset hquantity hcontract =>
      simp only [value, Builtin.encode, Leaf.parse, Leaf.parseExtendedAsset, hquantity, hcontract]
    | @struct name ms ms' habsent hpresent =>
      simp only [value, struct]
      apply fields_agree
      intro f hf
      cases hm : Json.member? ms f.name with
      | none => rw [(habsent f hf).mp hm]
      | some v =>
        cases hm' : Json.member? ms' f.name with
        | none =>
          rw [(habsent f hf).mpr hm'] at hm
          cases hm
        | some v' => exact congrArg some (ih (hpresent f hf v v' hm hm'))
    | variant hmember =>
      simp only [value]
      exact variant_agree fun m hm => ih (hmember m hm)
    | array hlength hitems =>
      simp only [value, array, hlength]
      rw [items_agree hlength fun i v v' hv hv' => ih (hitems i v v' hv hv')]
    | optional hinner =>
      by_cases hnull : v = .null
      · rw [hnull, hinner.null_iff.mp hnull]
      · rw [value_optional hnull, value_optional (mt hinner.null_iff.mpr hnull), ih hinner]
    | extension hinner => exact ih hinner

end Encode

namespace Contract
set_option autoImplicit true

/-- JSON values that agree on all that a requested type declares are encoded to the same bytes, or
fail with the same error: the same path, the same fault and so the same message. -/
theorem encode_eq_of_agree {c : Contract}
    (h : ∀ type, c.types.view name = .ok type → c.types.Agree type v v') (config : Config) :
    c.encode config name v = c.encode config name v' := by
  cases hview : c.view name with
  | error e => simp only [encode, hview, bind, Except.bind]
  | ok type =>
    have hvalue := Encode.value_agree (h type (view_eq_ok.mp hview)) config.levels
    simp only [encode, hview, bind, Except.bind, hvalue]

def orderDocument : Document :=
  { structs := [⟨"order", "", [⟨"id", "uint8"⟩, ⟨"lines", "line[]"⟩, ⟨"note", "string?"⟩]⟩,
      ⟨"item", "", [⟨"code", "uint16"⟩, ⟨"count", "uint8$"⟩]⟩]
    variants? := some [⟨"line", ["item", "extended_asset"]⟩] }

def orderTypes : TypeTable where
  structs := [⟨"order", [⟨"id", .builtin (.uint .w8)⟩, ⟨"lines", .array (.variant "line")⟩,
      ⟨"note", .optional (.builtin .string)⟩]⟩,
    ⟨"item", [⟨"code", .builtin (.uint .w16)⟩, ⟨"count", .extension (.builtin (.uint .w8))⟩]⟩]
  variants := [⟨"line", [⟨"item", .struct "item"⟩, ⟨"extended_asset", .builtin .extendedAsset⟩]⟩]
  meanings :=
    { names := [("extended_asset", .builtin .extendedAsset),
        ("uint8$", .extension (.builtin (.uint .w8))), ("uint16", .builtin (.uint .w16)),
        ("string?", .optional (.builtin .string)), ("string", .builtin .string),
        ("line[]", .array (.variant "line")), ("uint8", .builtin (.uint .w8)),
        ("order", .struct "order"), ("item", .struct "item"), ("line", .variant "line")]
      types := [.struct "order", .struct "item", .variant "line", .builtin (.uint .w8),
        .array (.variant "line"), .builtin .string, .optional (.builtin .string),
        .builtin (.uint .w16), .extension (.builtin (.uint .w8)), .builtin .extendedAsset] }

def lines : List Json :=
  [.arr [.str "item", .obj [("code", .ofNat 258), ("count", .ofNat 2)]],
    .arr [.str "extended_asset", .obj [("quantity", .str "1.0 A"), ("contract", .str "a")]]]

def order : Json := .obj [("id", .ofNat 7), ("lines", .arr lines)]

def otherLines : List Json :=
  [.arr [.str "item", .obj [("count", .ofNat 2), ("unit", .str "box"), ("code", .ofNat 258)]],
    .arr [.str "extended_asset",
      .obj [("contract", .str "a"), ("memo", .null), ("quantity", .str "1.0 A")]]]

def orderBytes : Bytes :=
  [7, 2, 0, 2, 1, 2, 1, 10, 0, 0, 0, 0, 0, 0, 0, 1, 65, 0, 0, 0, 0, 0, 0, 0, 0, 0, 0, 0, 0, 0, 48, 0]

theorem agree_lines :
    orderTypes.Agree (.array (.variant "line")) (.arr lines) (.arr otherLines) := by
  apply TypeTable.Agree.array
  · rfl
  · intro i v v' hv hv'
    cases i with
    | zero =>
      cases hv
      cases hv'
      apply TypeTable.Agree.variant
      intro m hm
      cases hm
      exact .of_members (List.forall_mem_cons.mpr ⟨rfl, List.forall_mem_singleton.mpr rfl⟩)
    | succ i =>
      cases i with
      | zero =>
        cases hv
        cases hv'
        apply TypeTable.Agree.variant
        intro m hm
        cases hm
        exact .extendedAsset rfl rfl
      | succ i => cases hv

theorem agree_order : orderTypes.Agree (.struct "order") order
    (.obj [("lines", .arr otherLines), ("Id", .null), ("id", .ofNat 7)]) := by
  apply TypeTable.Agree.struct
  · decide
  · intro f hf v v' hv hv'
    cases hf with
    | head =>
      cases hv
      cases hv'
      exact .same
    | tail _ hf =>
      cases hf with
      | head =>
        cases hv
        cases hv'
        exact agree_lines
      | tail _ hf =>
        cases List.mem_singleton.mp hf
        cases hv

theorem encode_eq_of_agree_order :
    TypeTable.build orderDocument = .ok orderTypes ∧
    (Contract.mk orderDocument orderTypes).encode {} "order" order = .ok orderBytes ∧
    (Contract.mk orderDocument orderTypes).encode {} "order"
      (.obj [("lines", .arr otherLines), ("Id", .null), ("id", .ofNat 7)]) = .ok orderBytes := by
  have hencode : (Contract.mk orderDocument orderTypes).encode {} "order" order =
    .ok orderBytes := rfl
  have hview : orderTypes.view "order" = .ok (.struct "order") := rfl
  refine ⟨by decide +kernel, hencode, ?_⟩
  rw [← hencode]
  apply Eq.symm
  apply encode_eq_of_agree
  intro type htype
  cases hview.symm.trans htype
  exact agree_order

end Contract
end ChainKit.Abi
