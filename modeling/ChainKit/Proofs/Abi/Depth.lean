import ChainKit.Proofs.Abi.RoundTrip

namespace ChainKit.Abi

namespace Content

/-- Whether the data ends where an extension is absent. -/
def EndsData (after : Bytes) : Content → Prop
  | absent => after = []
  | _ => True

instance (after : Bytes) : DecidablePred (EndsData after)
  | absent => inferInstanceAs (Decidable (after = []))
  | leaf _ | struct _ | variant _ _ _ | array _ | null | given _ | present _ => .isTrue trivial

end Content

/-- Whether a failure is that of a limit on nesting. -/
def Error.IsTooDeep : Error → Prop
  | .decode _ e => e.fault = .tooDeep
  | .encode _ ⟨_, .tooDeep⟩ => True
  | _ => False

namespace Decode
set_option autoImplicit true
open Content Wire

/-- Whether a read of given bytes stops behind them, or fails for another reason than its depth. -/
def Admits (r : Decode α) (bs after : Bytes) : Prop :=
  ∀ p, match r ⟨p, bs ++ after⟩ with
    | .ok _ s => s.rest = after
    | .error e _ => e.fault ≠ .tooDeep

namespace Admits

theorem pure (a : α) (after : Bytes) : Admits (Pure.pure a) [] after := fun _ => rfl

theorem bind {x : Decode α} {f : α → Decode β} (hx : Admits x bs (bs' ++ after))
    (hf : ∀ a, Admits (f a) bs' after) : Admits (x >>= f) (bs ++ bs') after := by
  intro p
  have h := hx p
  rw [List.append_assoc]
  cases hr : x ⟨p, bs ++ (bs' ++ after)⟩ with
  | ok a s =>
    rw [hr] at h
    obtain ⟨q, rest⟩ := s
    have hrest : rest = bs' ++ after := h
    subst hrest
    rw [bind_ok hr]
    exact hf a q
  | error e s =>
    rw [hr] at h
    simp only [Bind.bind, EStateM.bind, hr]
    exact h

/-- A read of given bytes as one value, and what is read behind it. -/
theorem behind {x : Decode α} {f : α → Decode β} (hx : Reads x bs a (bs' ++ after))
    (hf : Admits (f a) bs' after) : Admits (x >>= f) (bs ++ bs') after := by
  intro p
  rw [List.append_assoc, bind_ok (hx p)]
  exact hf _

theorem position {f : Nat → Decode α} (h : ∀ n, Admits (f n) bs after) :
    Admits (Decode.position >>= f) bs after := fun p => h p p

theorem map {x : Decode α} (f : α → β) (h : Admits x bs after) :
    Admits (x >>= fun a => Pure.pure (f a)) bs after := by
  have hpure : ∀ a, Admits (Pure.pure (f a)) [] after := fun a => Admits.pure (f a) after
  have hmap := h.bind hpure
  rwa [List.append_nil] at hmap

theorem part (step : Step) {x : Decode α} (h : Admits x bs after) :
    Admits (Decode.part step x) bs after := by
  intro p
  have hp := h p
  simp only [Decode.part, EStateM.adaptExcept]
  cases hr : x ⟨p, bs ++ after⟩ with
  | ok a s =>
    rw [hr] at hp
    exact hp
  | error e s =>
    rw [hr] at hp
    exact hp

end Admits

theorem admits_leaf {l : Leaf} (h : l.IsValid) (strict : Bool) (after : Bytes) :
    Admits (wire (l.type.decode strict)) l.toBytes after := by
  intro p
  simp only [wire, EStateM.adaptExcept]
  cases hr : l.type.decode strict ⟨p, l.toBytes ++ after⟩ with
  | error e s =>
    intro h
    cases h
  | ok v s =>
    obtain ⟨l', s', hl, hv⟩ := bind_eq_ok hr
    have hread := Leaf.reads_toBytes strict h (Leaf.isRepresentable_of_read hl) after
    obtain ⟨rfl, hrest⟩ := hread.eq_of_ok hl
    cases hv
    exact hrest

theorem admits_items {item : Decode Json} {P : Bytes → Content → Prop} {p : Content → Prop}
    (hv : ∀ c after, p c → c.Everywhere P after → Admits item c.bytes after)
    (h : ∀ c ∈ cs, p c) (hP : ItemsEverywhere P after cs) (i : Nat) (done : List Json) :
    Admits (items item i done cs.length) (itemsBytes cs) after := by
  induction cs generalizing i done with
  | nil => exact Admits.pure done after
  | cons c cs ih =>
    have hc := hv c _ (h c List.mem_cons_self) hP.1
    apply (hc.part (.item i)).bind
    intro v
    exact ih (fun d hd => h d (List.mem_cons_of_mem _ hd)) hP.2 (i + 1) (v :: done)

theorem admits_array {item : Decode Json} {P : Bytes → Content → Prop} {p : Content → Prop}
    (hv : ∀ c after, p c → c.Everywhere P after → Admits item c.bytes after)
    (h : ∀ c ∈ cs, p c) (hP : ItemsEverywhere P after cs) (hlen : cs.length < 2 ^ 32)
    (limit : Nat) :
    Admits (Decode.array limit item) (Content.array cs).bytes after := by
  rw [array_eq, bytes]
  apply Admits.position
  intro offset
  apply Admits.behind (reads_wire (Read.reads_varuint hlen _))
  intro q
  have hitems := (admits_items hv h hP 0 []).map (fun vs => Json.arr vs.reverse)
  by_cases hfits : limit < cs.length ∧ (Reader.mk q (itemsBytes cs ++ after)).remaining < cs.length
  · simp only [if_pos hfits]
    intro h
    cases h
  · simp only [if_neg hfits]
    exact hitems q

theorem admits_fields {value : Ty → Decode Json} {p : Ty → Content → Prop}
    (hv : ∀ type c after, p type c → c.Everywhere EndsData after →
      Admits (value type) c.bytes after)
    (h : FieldsHave p fs cs) (hP : FieldsEverywhere EndsData after cs)
    (done : List (String × Json)) : Admits (fields value done fs) (fieldsBytes cs) after := by
  induction h generalizing done with
  | done => exact Admits.pure done after
  | @field f c fs cs hc h ih =>
    have hread : Admits (Decode.part (.field f.name) (value f.type) >>= fun v =>
        fields value (Json.insert done f.name v) fs) (c.bytes ++ fieldsBytes cs) after := by
      apply ((hv f.type c _ hc hP.1).part (.field f.name)).bind
      intro v
      exact ih hP.2 (Json.insert done f.name v)
    intro q
    rw [fields_cons]
    cases hend : f.type.isExtension && (c.bytes ++ fieldsBytes cs ++ after).isEmpty with
    | false =>
      simp only [fieldsBytes, Reader.isEmpty, hend]
      exact hread q
    | true =>
      -- No bytes are left, so the field is one that takes none.
      have hempty := List.isEmpty_iff.mp (Bool.and_eq_true_iff.mp hend).2
      have hnil := List.append_eq_nil_iff.mp hempty
      have hrest := ih hP.2 done q
      rw [(List.append_eq_nil_iff.mp hnil.1).2] at hrest
      simp only [fieldsBytes, Reader.isEmpty, hend, if_true]
      rw [hnil.1]
      exact hrest
  | @absent fs hf =>
    rw [fieldsBytes_absent]
    cases fs with
    | nil => exact Admits.pure done after
    | cons f fs =>
      have hafter : fieldsBytes (fs.map fun g => (g.name, Content.absent)) ++ after = [] := hP.1
      rw [fieldsBytes_absent] at hafter
      intro q
      rw [show after = [] from hafter, List.append_nil, fields_atEnd hf]

/-- The wire form of a content is not too deep for the levels that the content takes. -/
theorem admits_value {t : TypeTable} {config : Config} (h : HasType t levels type c)
    (hP : c.Everywhere EndsData after) : Admits (value t config levels type) c.bytes after := by
  induction levels generalizing type c after with
  | zero => exact h.elim
  | succ levels ih =>
    cases type with
    | builtin b =>
      cases c with
      | leaf l =>
        obtain ⟨rfl, hl⟩ := h
        exact admits_leaf hl config.strictBool after
      | _ => exact h.elim
    | struct name =>
      cases c with
      | struct cs =>
        apply Admits.map
        exact admits_fields (fun _ _ _ hc hPc => ih hc hPc) h hP.2 []
      | _ => exact h.elim
    | variant name =>
      cases c with
      | variant tag member c =>
        obtain ⟨htag, -, m, hm, hc⟩ := h
        apply Admits.position
        intro offset
        apply Admits.behind (reads_wire (Read.reads_varuint htag _))
        have hmember : ((t.variant? name).getD ⟨name, []⟩).members[tag]? = some m := hm
        rw [hmember]
        exact ((ih hc hP.2).part (.member m.name)).map _
      | _ => exact h.elim
    | array item =>
      cases c with
      | array cs =>
        exact admits_array (fun _ _ hc hPc => ih hc hPc) h.2 hP.2 h.1 config.maxArrayLength
      | _ => exact h.elim
    | optional inner =>
      cases c with
      | null =>
        apply Admits.position
        intro offset
        have hflag : Reads (wire Read.byte) [0] 0 ([] ++ after) :=
          reads_wire (Read.reads_byte 0 after)
        apply Admits.behind hflag
        exact Admits.pure Json.null after
      | given c =>
        apply Admits.position
        intro offset
        exact Admits.behind (reads_wire (Read.reads_byte 1 _)) (ih h hP.2)
      | _ => exact h.elim
    | extension inner =>
      cases c with
      | present c =>
        have hinner : Admits (value t config levels inner) c.bytes after := ih h hP.2
        intro q
        rw [value, extension, atEnd_bind]
        cases hempty : (Reader.mk q ((present c).bytes ++ after)).isEmpty with
        | true =>
          -- At the end of the data nothing is read, and that takes no level.
          have hnil := List.append_eq_nil_iff.mp (List.isEmpty_iff.mp hempty)
          simp only [if_true, hnil.1, hnil.2]
          rfl
        | false => exact hinner q
      | _ => exact h.elim

end Decode

namespace Contract
set_option autoImplicit true

theorem not_isTooDeep_of_admits {c : Contract} (hview : c.types.view name = .ok type)
    (h : Decode.Admits (Decode.value c.types config config.levels type) bs [])
    (hdecode : c.decode config name bs = .error e) : ¬e.IsTooDeep := by
  have hread := h 0
  rw [List.append_nil] at hread
  rw [decode, view_eq_ok.mpr hview] at hdecode
  simp only [bind, Except.bind] at hdecode
  split at hdecode
  · rename_i fault s hr
    cases hdecode
    have hvalue : Decode.value c.types config config.levels type ⟨0, bs⟩ = .error fault s := hr
    rw [hvalue] at hread
    exact hread
  · split at hdecode
    · cases hdecode
    · cases hdecode
      intro h
      cases h

/-- What is encoded within a limit is not too deep to be decoded, if no byte follows an absent
extension: one more level is always enough, and the limit itself is enough if no optional value is
left out where no level is left for it. -/
theorem decode_not_tooDeep {d : Document} {t : TypeTable} (hview : t.view name = .ok type)
    (hencode : (Contract.mk d t).encode config name v = .ok bs)
    (hends : ∀ content, (Contract.mk d t).content? config name v = some content →
      content.Everywhere Content.EndsData []) :
    (∀ e, (Contract.mk d t).decode config.deeper name bs = .error e → ¬e.IsTooDeep) ∧
      (Content.LeavesRoom t config.levels type v →
        ∀ e, (Contract.mk d t).decode config name bs = .error e → ¬e.IsTooDeep) := by
  obtain ⟨c, hc, rfl⟩ := (encode_eq_ok hview).mp hencode
  have hcontent := hends c ((content?_of_view (c := Contract.mk d t) hview config v).trans hc)
  constructor
  · intro e he
    have htype : Content.HasType t config.deeper.levels type c := Content.hasType_of_ofJson? hc
    have hadmits : Decode.Admits (Decode.value t config.deeper config.deeper.levels type) c.bytes
        [] := Decode.admits_value htype hcontent
    exact not_isTooDeep_of_admits (c := Contract.mk d t) hview hadmits he
  · intro hroom e he
    have htype : Content.HasType t config.levels type c :=
      Content.hasType_of_room 0 hc fun _ => hroom
    have hadmits : Decode.Admits (Decode.value t config config.levels type) c.bytes [] :=
      Decode.admits_value htype hcontent
    exact not_isTooDeep_of_admits (c := Contract.mk d t) hview hadmits he

def linkDocument : Document := { structs := [⟨"link", "", [⟨"next", "link?"⟩]⟩] }

def linkTypes : TypeTable where
  structs := [⟨"link", [⟨"next", .optional (.struct "link")⟩]⟩]
  variants := []
  meanings :=
    { names := [("link?", .optional (.struct "link")), ("link", .struct "link")]
      types := [.struct "link", .optional (.struct "link")] }

def link : Json := .obj [("next", .obj [("next", .null)])]

def linkContent : Content := .struct [("next", .given (.struct [("next", .null)]))]

theorem decode_not_tooDeep_link :
    (Contract.mk linkDocument linkTypes).encode { maxDepth := 3 } "link" link = .ok [1, 0] ∧
    (Contract.mk linkDocument linkTypes).decode { maxDepth := 3 } "link" [1, 0] = .ok link ∧
    (∀ e, (Contract.mk linkDocument linkTypes).decode { maxDepth := 3 } "link" [1, 0] = .error e →
      ¬e.IsTooDeep) := by
  have hencode : (Contract.mk linkDocument linkTypes).encode { maxDepth := 3 } "link" link =
    .ok [1, 0] := rfl
  have hcontent : (Contract.mk linkDocument linkTypes).content? { maxDepth := 3 } "link" link =
    some linkContent := rfl
  have hends : linkContent.Everywhere Content.EndsData [] := by decide
  have hroom : Content.LeavesRoom linkTypes 4 (.struct "link") link := by
    simp [Content.LeavesRoom, link, linkTypes, TypeTable.fieldsOf, TypeTable.struct?, Json.member?]
  refine ⟨hencode, rfl, (decode_not_tooDeep rfl hencode ?_).2 hroom⟩
  intro content hc
  cases hcontent.symm.trans hc
  exact hends

/-- A link whose optional value is left out takes one level when it is encoded, and two when it is
decoded. -/
theorem tooDeep_of_left_out :
    TypeTable.build linkDocument = .ok linkTypes ∧
    linkTypes.view "link" = .ok (.struct "link") ∧
    (Contract.mk linkDocument linkTypes).encode { maxDepth := 0 } "link" (.obj []) = .ok [0] ∧
    (Contract.mk linkDocument linkTypes).decode { maxDepth := 0 } "link" [0] =
      .error (.decode "link" ⟨[.field "next"], 0, .tooDeep⟩) ∧
    DecodeFault.message .tooDeep = "recursion limit reached" :=
  ⟨by decide +kernel, rfl, rfl, rfl, rfl⟩

end Contract
end ChainKit.Abi
