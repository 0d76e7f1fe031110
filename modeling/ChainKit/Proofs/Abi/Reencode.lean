import ChainKit.Proofs.Abi.RoundTrip
import ChainKit.Proofs.Abi.Spelling

namespace ChainKit.Abi

namespace TypeTable

variable (t : TypeTable)

/-- Whether extensions occur only as fields, with nothing but extensions behind them. -/
def HasExtensionsLast : Ty → Prop
  | .struct name =>
    (t.fieldsOf name).Pairwise fun f g => f.type.isExtension → g.type.isExtension
  | .variant name => ∀ m ∈ t.membersOf name, m.type.isExtension = false
  | _ => True

instance : DecidablePred t.HasExtensionsLast
  | .struct name => inferInstanceAs (Decidable ((t.fieldsOf name).Pairwise
      fun f g => f.type.isExtension → g.type.isExtension))
  | .variant name =>
    inferInstanceAs (Decidable (∀ m ∈ t.membersOf name, m.type.isExtension = false))
  | .builtin _ | .array _ | .optional _ | .extension _ => .isTrue trivial

end TypeTable

namespace Decode
set_option autoImplicit true
open Content Wire

/-- Whether a value is the canonical form of a content that is spelled by the bytes that were
read. -/
def IsFormOf (p : Content → Prop) (used : Bytes) (w : Json) : Prop :=
  ∃ c, p c ∧ c.toJson = w ∧ c.IsSpelledBy used

theorem takes_wire {r : Read α} (h : Takes r P) : Takes (wire r) P := h.adapt _

theorem takes_part (step : Step) (h : Takes r P) : Takes (part step r) P := h.adapt _

theorem takes_items {item : Decode Json} {p : Content → Prop} (h : Takes item (IsFormOf p))
    (i : Nat) (done : List Json) (count : Nat) : Takes (items item i done count) fun used vs =>
      ∃ cs, cs.length = count ∧ (∀ c ∈ cs, p c) ∧ vs = (itemsJson cs).reverse ++ done ∧
        ItemsAreSpelledBy cs used := by
  induction count generalizing i done with
  | zero => exact Takes.pure ⟨[], rfl, nofun, rfl, rfl⟩
  | succ count ih =>
    rw [items]
    refine (takes_part _ h).bind ?_
    rintro used w ⟨c, hc, rfl, hspelled⟩
    refine (ih (i + 1) (c.toJson :: done)).mono ?_
    rintro used' vs ⟨cs, rfl, hcs, rfl, hitems⟩
    refine ⟨c :: cs, rfl, List.forall_mem_cons.mpr ⟨hc, hcs⟩, ?_, used, used', rfl, hspelled,
      hitems⟩
    rw [itemsJson, List.reverse_cons, List.append_assoc, List.singleton_append]

theorem takes_array {item : Decode Json} {p : Content → Prop} (h : Takes item (IsFormOf p)) :
    Takes (Decode.array limit item) (IsFormOf fun c =>
      ∃ cs, c = Content.array cs ∧ cs.length < 2 ^ 32 ∧ ∀ c ∈ cs, p c) := by
  rw [array_eq]
  refine Takes.position fun offset => (takes_wire Read.takes_varuint).bind ?_
  intro length count hcount s w s' hs
  simp only at hs
  split at hs
  · cases hs
  · refine Takes.map (takes_items h 0 [] count) ?_ s w s' hs
    rintro used vs ⟨cs, rfl, hcs, rfl, hitems⟩
    refine ⟨.array cs, ⟨cs, rfl, hcount.lt, hcs⟩, ?_, length, used, rfl, hcount, hitems⟩
    rw [List.append_nil, List.reverse_reverse]
    rfl

theorem takes_variant {value : Ty → Decode Json} {p : Ty → Content → Prop} {u : VariantType}
    (h : ∀ m ∈ u.members, Takes (value m.type) (IsFormOf (p m.type))) :
    Takes (Decode.variant value u) (IsFormOf fun c =>
      ∃ tag m inner, c = Content.variant tag m.name inner ∧ tag < 2 ^ 32 ∧
        u.members[tag]? = some m ∧ p m.type inner) := by
  refine Takes.position fun offset => (takes_wire Read.takes_varuint).bind ?_
  intro used tag htag
  split
  · exact Takes.throw _
  · rename_i m hm
    refine Takes.map (takes_part _ (h m (List.mem_of_getElem? hm))) ?_
    rintro used' w ⟨c, hc, rfl, hspelled⟩
    exact ⟨.variant tag m.name c, ⟨tag, m, c, rfl, htag.lt, hm, hc⟩, rfl, used, used', rfl, htag,
      hspelled⟩

theorem takes_optional {inner : Decode Json} {p : Content → Prop} (h : Takes inner (IsFormOf p)) :
    Takes (Decode.optional inner) (IsFormOf fun c => c = null ∨ ∃ d, c = given d ∧ p d) := by
  refine Takes.position fun offset => (takes_wire Read.takes_byte).bind ?_
  rintro used flag rfl
  split
  · rename_i hflag
    exact Takes.pure ⟨null, .inl rfl, rfl, hflag ▸ rfl⟩
  · split
    · rename_i hflag
      subst hflag
      refine h.mono ?_
      rintro used w ⟨c, hc, rfl, hspelled⟩
      exact ⟨given c, .inr ⟨c, rfl, hc⟩, rfl, used, rfl, hspelled⟩
    · exact Takes.throw _

/-- What is true of reading a value where an extension is there. -/
def TakesShown (r : Decode Json) (type : Ty) (p : Content → Prop) : Prop :=
  ∀ s w s', (type.isExtension → s.rest ≠ []) → r s = .ok w s' →
    ∃ used, s.rest = used ++ s'.rest ∧ IsFormOf p used w

theorem TakesShown.takes (h : TakesShown r type p) (ht : type.isExtension = false) :
    Takes r (IsFormOf p) := by
  intro s w s' hs
  exact h s w s' (fun he => absurd (ht.symm.trans he) (by decide)) hs

theorem takes_fields {value : Ty → Decode Json} {p : Ty → Content → Prop}
    (hv : ∀ f ∈ fs, TakesShown (value f.type) f.type (p f.type))
    (hne : ∀ type c, p type c → c ≠ absent)
    (hlast : fs.Pairwise fun f g => f.type.isExtension → g.type.isExtension)
    (hnodup : (fs.map Field.name).Nodup) (hdone : ∀ f ∈ fs, f.name ∉ done.map Prod.fst) :
    Takes (fields value done fs) fun used ms => ∃ cs, FieldsHave p fs cs ∧
      ms = done ++ fieldsJson cs ∧ FieldsAreSpelledBy cs used := by
  induction fs generalizing done with
  | nil => exact Takes.pure ⟨[], .done, (List.append_nil done).symm, rfl⟩
  | cons f fs ih =>
    intro s ms s' hs
    have hbehind := List.pairwise_cons.mp hlast
    have hnames := List.nodup_cons.mp hnodup
    rw [fields_cons] at hs
    cases hend : f.type.isExtension && s.isEmpty with
    | true =>
      obtain ⟨hf, hempty⟩ := Bool.and_eq_true_iff.mp hend
      have hrest : ∀ g ∈ fs, g.type.isExtension := fun g hg => hbehind.1 g hg hf
      obtain ⟨q, bs⟩ := s
      cases List.isEmpty_iff.mp hempty
      simp only [hend, if_true] at hs
      rw [fields_atEnd hrest] at hs
      cases hs
      refine ⟨[], rfl, _, .absent (List.forall_mem_cons.mpr ⟨hf, hrest⟩), ?_,
        fieldsAreSpelledBy_absent _⟩
      rw [fieldsJson_absent, List.append_nil]
    | false =>
      simp only [hend] at hs
      obtain ⟨w, s₁, hw, hs⟩ := bind_eq_ok hs
      have hshown : f.type.isExtension → s.rest ≠ [] := by
        intro he hempty
        rw [he, Reader.isEmpty, hempty] at hend
        cases hend
      obtain ⟨used, hused, c, hc, rfl, hspelled⟩ :=
        hv f List.mem_cons_self s w s₁ hshown (part_eq_ok hw)
      have hnew := not_mem_append_field hnodup hdone c.toJson
      rw [Json.insert_of_not_mem (hdone f List.mem_cons_self)] at hs
      obtain ⟨used', hused', cs, hcs, rfl, hfields⟩ :=
        ih (fun g hg => hv g (List.mem_cons_of_mem _ hg)) hbehind.2 hnames.2 hnew s₁ ms s' hs
      refine ⟨used ++ used', ?_, (f.name, c) :: cs, .field hc hcs, ?_, used, used', rfl, hspelled,
        hfields⟩
      · rw [hused, hused', List.append_assoc]
      · rw [fieldsJson_cons (hne _ _ hc), List.append_assoc, List.singleton_append]

/-- What a type needs for decoded values to be encoded to the same bytes. -/
structure IsFaithful (t : TypeTable) (type : Ty) : Prop where
  fields : t.Throughout t.HasDistinctFields type
  members : t.Throughout t.HasDistinctMembers type
  tokens : t.Throughout (Ty.Avoids Builtin.IsToken) type
  extensions : t.Throughout t.HasExtensionsLast type
  nested : t.Throughout Ty.IsWellNested type

theorem IsFaithful.part {t : TypeTable} {inner : Ty} (h : IsFaithful t type)
    (hp : t.Part type inner) : IsFaithful t inner :=
  ⟨h.fields.part hp, h.members.part hp, h.tokens.part hp, h.extensions.part hp, h.nested.part hp⟩

/-- Whether a content is one of a type and holds no time out of range. -/
def IsTimely (t : TypeTable) (levels : Nat) (type : Ty) (c : Content) : Prop :=
  HasType t levels type c ∧ ∀ after, c.Everywhere (fun _ => ShowsTime) after

theorem takes_value {t : TypeTable} {config : Config} (hstrict : config.strictBool = true)
    (ht : IsFaithful t type) (levels : Nat) :
    TakesShown (value t config levels type) type (IsTimely t levels type) := by
  induction levels generalizing type with
  | zero =>
    intro s w s' _ hs
    cases hs
  | succ levels ih =>
    cases type with
    | builtin b =>
      intro s w s' _ hs
      have htakes := takes_wire (Takes.map (Leaf.takes_read b) (f := Leaf.toJson)
        (Q := IsFormOf (IsTimely t (levels + 1) (.builtin b))) ?_)
      · rw [value, hstrict] at hs
        exact htakes s w s' hs
      · intro used l hl
        exact ⟨leaf l, ⟨⟨hl.type_eq, hl.valid ht.tokens.here⟩, fun _ => hl.representable⟩, rfl,
          hl.spelled⟩
    | struct name =>
      intro s w s' _ hs
      refine Takes.map (Q := IsFormOf (IsTimely t (levels + 1) (.struct name)))
        (takes_fields (p := IsTimely t levels) ?_ (fun _ _ hc => hc.1.ne_absent)
          ht.extensions.here ht.fields.here ?_) ?_ s w s' hs
      · intro f hf
        exact ih (ht.part (.field hf))
      · exact fun _ _ => List.not_mem_nil
      · rintro used ms ⟨cs, hcs, rfl, hspelled⟩
        refine ⟨.struct cs, ⟨hcs.mono fun _ _ h => h.1, fun after => ⟨trivial, ?_⟩⟩, rfl, hspelled⟩
        exact hcs.everywhere (fun _ _ after h => h.2 after) (fun _ => trivial) after
    | variant name =>
      intro s w s' _ hs
      refine Takes.mono (Q := IsFormOf (IsTimely t (levels + 1) (.variant name)))
        (takes_variant (p := IsTimely t levels) ?_) ?_ s w s' hs
      · intro m hm
        exact (ih (ht.part (.member hm))).takes (ht.extensions.here m hm)
      · rintro used w ⟨-, ⟨tag, m, c, rfl, htag, hm, hc⟩, rfl, hspelled⟩
        have hfind := Result.findIdx?_of_nodup ht.members.here hm
        exact ⟨.variant tag m.name c,
          ⟨⟨htag, hfind, m, hm, hc.1⟩, fun after => ⟨trivial, hc.2 after⟩⟩, rfl, hspelled⟩
    | array item =>
      intro s w s' _ hs
      have hitem : item.isExtension = false := Ty.isExtension_of_not_isWrapped ht.nested.here.1
      refine Takes.mono (Q := IsFormOf (IsTimely t (levels + 1) (.array item)))
        (takes_array ((ih (ht.part .item)).takes hitem)) ?_ s w s' hs
      rintro used w ⟨-, ⟨cs, rfl, hlen, hcs⟩, rfl, hspelled⟩
      refine ⟨.array cs, ⟨⟨hlen, fun c hc => (hcs c hc).1⟩, fun after => ⟨trivial, ?_⟩⟩,
        rfl, hspelled⟩
      exact itemsEverywhere (fun c hc => (hcs c hc).2) after
    | optional inner =>
      intro s w s' _ hs
      have hinner : inner.isExtension = false := Ty.isExtension_of_not_isWrapped ht.nested.here.1
      refine Takes.mono (Q := IsFormOf (IsTimely t (levels + 1) (.optional inner)))
        (takes_optional ((ih (ht.part .given)).takes hinner)) ?_ s w s' hs
      rintro used w ⟨-, rfl | ⟨c, rfl, hc⟩, rfl, hspelled⟩
      · exact ⟨null, ⟨trivial, fun _ => trivial⟩, rfl, hspelled⟩
      · exact ⟨given c, ⟨hc.1, fun after => ⟨trivial, hc.2 after⟩⟩, rfl, hspelled⟩
    | extension inner =>
      intro s w s' hshown hs
      -- The data goes on, so the extension is not read as absent.
      have hempty : s.isEmpty = false := List.isEmpty_eq_false_iff.mpr (hshown rfl)
      rw [value, extension, atEnd_bind, hempty] at hs
      have hinner : inner.isExtension = false := ht.nested.here.1
      obtain ⟨used, hused, c, hc, rfl, hspelled⟩ :=
        (ih (ht.part .present)).takes hinner s w s' hs
      exact ⟨used, hused, present c, ⟨hc.1, fun after => ⟨trivial, hc.2 after⟩⟩, rfl, hspelled⟩

end Decode

namespace Contract
set_option autoImplicit true

/-- What is decoded is the canonical form of a content of the type that the bytes spell, and is
encoded as the wire form of that content: these bytes, except that counts, tags, lengths and
variable-length integers come out in their shortest form. -/
theorem encode_decode {d : Document} {t : TypeTable} (hbuild : TypeTable.build d = .ok t)
    (hview : t.view name = .ok type) (hstrict : config.strictBool = true)
    (hfields : t.Throughout t.HasDistinctFields type)
    (hmembers : t.Throughout t.HasDistinctMembers type)
    (hfloats : t.Throughout (Ty.Avoids Builtin.IsFloat) type)
    (htokens : t.Throughout (Ty.Avoids Builtin.IsToken) type)
    (hextension : type.isExtension = false) (hextensions : t.Throughout t.HasExtensionsLast type)
    (hdecode : (Contract.mk d t).decode config name bs = .ok w) :
    ∃ c, Content.HasType t config.levels type c ∧ c.toJson = w ∧ c.IsSpelledBy bs ∧
      (Contract.mk d t).encode config name w = .ok c.bytes ∧
      (c.bytes = bs ∨ c.bytes.length < bs.length) := by
  obtain ⟨p, hrun⟩ := (decode_eq_ok hview).mp hdecode
  have hnested := TypeTable.isWellNested_of_view hbuild hview
  have hfaithful : Decode.IsFaithful t type := ⟨hfields, hmembers, htokens, hextensions, hnested⟩
  obtain ⟨used, hused, c, hc, rfl, hspelled⟩ :=
    (Decode.takes_value hstrict hfaithful config.levels).takes hextension _ _ _ hrun
  have hbs : bs = used := hused.trans (List.append_nil used)
  rw [← hbs] at hspelled
  have hcontent := Content.ofJson?_toJson hc.1 ⟨hfields, hfloats, hnested⟩ (hc.2 [])
  exact ⟨c, hc.1, rfl, hspelled, (encode_eq_ok hview).mpr ⟨c, hcontent, rfl⟩,
    hspelled.eq_or_shorter⟩

def longNoteBytes : Bytes := [1, 0, 0x82, 0, 2, 3, 0, 0, 0, 0, 0, 0, 0, 0, 0x30]

theorem encode_decode_note :
    (Contract.mk noteDocument noteTypes).decode {} "note" longNoteBytes = .ok noteContent.toJson ∧
    (Contract.mk noteDocument noteTypes).encode {} "note" noteContent.toJson = .ok noteBytes ∧
    noteBytes.length < longNoteBytes.length ∧
    ∃ c : Content, c.toJson = noteContent.toJson ∧ c.IsSpelledBy longNoteBytes ∧
      c.bytes = noteBytes := by
  have hdecode : (Contract.mk noteDocument noteTypes).decode {} "note" longNoteBytes =
    .ok noteContent.toJson := rfl
  have hencode : (Contract.mk noteDocument noteTypes).encode {} "note" noteContent.toJson =
    .ok noteBytes := rfl
  have hview : noteTypes.view "note" = .ok (.struct "note") := rfl
  have hthroughout {P : Ty → Prop} (hP : ∀ u ∈ noteTypes.meanings.types, P u) :
      noteTypes.Throughout P (.struct "note") :=
    .of_closed noteTypes.meanings.types (by decide) (by decide) hP
  obtain ⟨c, -, hjson, hspelled, hbytes, -⟩ :=
    encode_decode build_note hview rfl (hthroughout (by decide)) (hthroughout (by decide))
      (hthroughout (by decide)) (hthroughout (by decide)) rfl (hthroughout (by decide)) hdecode
  have hbytes : c.bytes = noteBytes := Except.ok.inj (hbytes.symm.trans hencode)
  exact ⟨hdecode, hencode, by decide, c, hjson, hspelled, hbytes⟩

end Contract
end ChainKit.Abi
