import ChainKit.Proofs.Abi.Agreement
import ChainKit.Proofs.Abi.Requests
import ChainKit.Proofs.Abi.RoundTrip

namespace ChainKit.Abi

namespace Step
set_option autoImplicit true

def text : Step → String
  | .field name => "." ++ name
  | .item i => "[" ++ toString i ++ "]"
  | .member name => "<" ++ name ++ ">"

/-- What the text of a path has behind its root. -/
def trail : List Step → String
  | [] => ""
  | step :: steps => text step ++ trail steps

theorem render_eq (h : before ≠ "") (step : Step) : render before step = before ++ step.text := by
  cases step with
  | field name => rw [render, if_neg h, text, String.append_assoc]
  | item i => simp only [render, text, String.append_assoc]
  | member name => simp only [render, text, String.append_assoc]

theorem path_eq (h : root ≠ "") (steps : List Step) : path root steps = root ++ trail steps := by
  induction steps generalizing root with
  | nil => exact String.append_empty.symm
  | cons step steps ih =>
    have hfirst : root ++ step.text ≠ "" := fun he => h (String.append_eq_empty_iff.mp he).1
    rw [path, List.foldl_cons, render_eq h]
    exact (ih hfirst).trans String.append_assoc

end Step

namespace TypeTable
set_option autoImplicit true

variable {d : Document} {t : TypeTable}

/-- An array of a type can be requested only if the type can be. -/
theorem item_of_view (hbuild : build d = .ok t) (hview : t.view (name ++ "[]") = .ok type) :
    ∃ item, t.view name = .ok item ∧ type = .array item := by
  have ht := isOf_of_build hbuild
  have hsplit : Suffix.split? (name ++ "[]") = some (.array, name) :=
    Suffix.split?_append name .array
  obtain ⟨n, h⟩ := ht.view_eq_ok.mp hview
  cases h.rule ht.names with
  | declared hdeclared => exact absurd rfl (ht.names.no_suffix _ hdeclared.mem name .array)
  | suffix _ hsuffix _ hstem hwraps =>
    cases hsplit.symm.trans hsuffix
    cases hwraps
    exact ⟨_, ht.view_eq_ok.mpr ⟨_, hstem⟩, rfl⟩
  | builtin _ hnone => cases hsplit.symm.trans hnone
  | via _ hnone => cases hsplit.symm.trans hnone

theorem ne_empty_of_view (hbuild : build d = .ok t) (hview : t.view name = .ok type) :
    name ≠ "" := by
  rintro rfl
  have ht := isOf_of_build hbuild
  obtain ⟨n, h⟩ := ht.view_eq_ok.mp hview
  cases h.rule ht.names with
  | declared hdeclared => exact ht.names.nonempty _ hdeclared.mem rfl
  | suffix _ hsuffix => cases hsuffix
  | builtin _ _ hbuiltin => cases hbuiltin
  | via _ _ _ htarget =>
    obtain ⟨a, ha, hname, -⟩ := Document.aliasTarget?_eq_some htarget
    exact ht.names.nonempty _ (Document.mem_declaredNames.mpr (.inl ⟨a, ha, rfl⟩)) hname

end TypeTable

namespace Encode
set_option autoImplicit true

variable {item : Encoder}

theorem items_ok (h : Result.Each (fun v bs => item v = .ok bs) vs bss) (i : Nat) :
    items item i vs = .ok bss.flatten := by
  induction h generalizing i with
  | nil => rfl
  | cons hv _ ih =>
    rw [items, hv, ih]
    rfl

theorem items_error {k : Nat} (hv : vs[k]? = some v)
    (hbefore : ∀ u ∈ vs.take k, ∃ bs, item u = .ok bs) (he : item v = .error e) (i : Nat) :
    items item i vs = .error (e.within (.item (i + k))) := by
  induction k generalizing vs i with
  | zero =>
    cases vs with
    | nil => cases hv
    | cons u vs =>
      cases hv
      rw [items, he]
      rfl
  | succ k ih =>
    cases vs with
    | nil => cases hv
    | cons u vs =>
      obtain ⟨⟨bs, hu⟩, hbehind⟩ := List.forall_mem_cons.mp hbefore
      rw [items, hu, ih hv hbehind, Nat.add_right_comm]
      rfl

theorem array_arr (hlen : vs.length < 2 ^ 32) :
    array item (.arr vs) = (items item 0 vs).map fun bs => Wire.varuint vs.length ++ bs := by
  rw [array, if_neg (Nat.not_le.mpr hlen)]
  cases items item 0 vs <;> rfl

end Encode

namespace Contract
set_option autoImplicit true

variable {d : Document} {t : TypeTable}

theorem encode_of_view {c : Contract} (hview : c.types.view name = .ok type) :
    c.encode config name v =
      (Encode.value c.types config.levels type v).mapError (.encode name) := by
  rw [encode, view_eq_ok.mpr hview]
  rfl

/-- An array is encoded as the number of its items and then each item as it is on its own, with one
level less. If one of them is no value of the type of the items, the error of the first such item is
that of the array: for the same reason, and with the place of the item behind the root of its
path. -/
theorem encode_items (hbuild : TypeTable.build d = .ok t)
    (hview : t.view (name ++ "[]") = .ok type) (hlen : vs.length < 2 ^ 32) (config : Config) :
    (∀ bss, Result.Each (fun v bs => (Contract.mk d t).encode config name v = .ok bs) vs bss →
      (Contract.mk d t).encode config.deeper (name ++ "[]") (.arr vs) =
        .ok (Wire.varuint vs.length ++ bss.flatten)) ∧
    ∀ (i : Nat) v e, vs[i]? = some v →
      (∀ u ∈ vs.take i, ∃ bs, (Contract.mk d t).encode config name u = .ok bs) →
      (Contract.mk d t).encode config name v = .error e →
      ∃ steps fault, e = .encode name ⟨steps, fault⟩ ∧
        (Contract.mk d t).encode config.deeper (name ++ "[]") (.arr vs) =
          .error (.encode (name ++ "[]") ⟨.item i :: steps, fault⟩) ∧
        Step.path name steps = name ++ Step.trail steps ∧
        Step.path (name ++ "[]") (.item i :: steps) =
          name ++ "[]" ++ "[" ++ toString i ++ "]" ++ Step.trail steps := by
  obtain ⟨item, hitem, rfl⟩ := TypeTable.item_of_view hbuild hview
  have hone (u : Json) : (Contract.mk d t).encode config name u =
      (Encode.value t config.levels item u).mapError (.encode name) := encode_of_view hitem
  have hall : (Contract.mk d t).encode config.deeper (name ++ "[]") (.arr vs) =
      ((Encode.items (Encode.value t config.levels item) 0 vs).map fun bs =>
        Wire.varuint vs.length ++ bs).mapError (.encode (name ++ "[]")) := by
    rw [encode_of_view (c := ⟨d, t⟩) hview, ← Encode.array_arr hlen]
    rfl
  constructor
  · intro bss hbss
    have hitems : Result.Each (fun v bs => Encode.value t config.levels item v = .ok bs) vs bss :=
      hbss.mono fun v bs hv => Result.mapError_eq_ok.mp ((hone v).symm.trans hv)
    rw [hall, Encode.items_ok hitems]
    rfl
  · intro i v e hv hbefore he
    have hitems : ∀ u ∈ vs.take i, ∃ bs, Encode.value t config.levels item u = .ok bs := by
      intro u hu
      obtain ⟨bs, hbs⟩ := hbefore u hu
      exact ⟨bs, Result.mapError_eq_ok.mp ((hone u).symm.trans hbs)⟩
    rw [hone] at he
    cases hvalue : Encode.value t config.levels item v with
    | ok bs =>
      rw [hvalue] at he
      cases he
    | error e' =>
      rw [hvalue] at he
      cases he
      refine ⟨e'.steps, e'.fault, rfl, ?_, ?_, ?_⟩
      · rw [hall, Encode.items_error hv hitems hvalue, Nat.zero_add]
        rfl
      · exact Step.path_eq (TypeTable.ne_empty_of_view hbuild hitem) e'.steps
      · rw [Step.path_eq (TypeTable.ne_empty_of_view hbuild hview), Step.trail, Step.text]
        simp only [String.append_assoc]

def badOrder : Json :=
  .obj [("id", .ofNat 8), ("lines", .arr (lines ++ [.arr [.str "item", .obj []]]))]

theorem encode_items_order :
    TypeTable.build orderDocument = .ok orderTypes ∧
    (Contract.mk orderDocument orderTypes).encode (Config.deeper {}) "order[]"
      (.arr [order, order]) = .ok (2 :: orderBytes ++ orderBytes) ∧
    (Contract.mk orderDocument orderTypes).encode (Config.deeper {}) "order[]"
      (.arr [order, badOrder, order]) =
        .error (.encode "order[]" ⟨[.item 1, .field "lines", .item 2, .member "item",
          .field "code"], .missingField⟩) ∧
    Step.path "order[]" [.item 1, .field "lines", .item 2, .member "item", .field "code"] =
      "order[][1].lines[2]<item>.code" := by
  have hbuild : TypeTable.build orderDocument = .ok orderTypes := by decide +kernel
  have hview : orderTypes.view ("order" ++ "[]") = .ok (.array (.struct "order")) := rfl
  have hgood : (Contract.mk orderDocument orderTypes).encode {} "order" order =
    .ok orderBytes := rfl
  have hbad : (Contract.mk orderDocument orderTypes).encode {} "order" badOrder =
    .error (.encode "order" ⟨[.field "lines", .item 2, .member "item", .field "code"],
      .missingField⟩) := rfl
  refine ⟨hbuild, ?_, ?_, rfl⟩
  · have hlength : [order, order].length < 2 ^ 32 := by decide
    exact (encode_items hbuild hview hlength {}).1 [orderBytes, orderBytes]
      (.cons hgood (.cons hgood .nil))
  · have hlength : [order, badOrder, order].length < 2 ^ 32 := by decide
    have hfirst := (encode_items hbuild hview hlength {}).2 1 badOrder _ rfl
      (List.forall_mem_singleton.mpr ⟨orderBytes, hgood⟩) hbad
    obtain ⟨steps, fault, he, hencode, -⟩ := hfirst
    cases he
    exact hencode

end Contract
end ChainKit.Abi
