import ChainKit.Proofs.Abi.Limits
import ChainKit.Proofs.Abi.Reencode

namespace ChainKit.Abi

theorem Leaf.toOption_parse_null (b : Builtin) : (parse b .null).toOption = none := by
  cases b <;> rfl

namespace Content
set_option autoImplicit true

/-- Whether fields are read, one after the other; any extension may be absent. -/
inductive FieldsRead (p : Ty → Content → Prop) : List Field → List (String × Content) → Prop where
  | done : FieldsRead p [] []
  | field {f : Field} {c : Content} {fs : List Field} {cs : List (String × Content)}
      (hc : p f.type c) (hne : c ≠ Content.absent) (h : FieldsRead p fs cs) :
      FieldsRead p (f :: fs) ((f.name, c) :: cs)
  | absent {f : Field} {fs : List Field} {cs : List (String × Content)}
      (hf : f.type.isExtension) (h : FieldsRead p fs cs) :
      FieldsRead p (f :: fs) ((f.name, Content.absent) :: cs)

/-- Whether a content can be read as a type, with at most `levels` values inside each other. It may
have tokens that no text spells, and extensions that are absent in any place. -/
def IsRead (t : TypeTable) : (levels : Nat) → Ty → Content → Prop
  | _ + 1, .builtin b, leaf l => l.type = b ∧ l.IsRepresentable ∧ (¬b.IsToken → l.IsValid)
  | levels + 1, .struct name, struct cs => FieldsRead (IsRead t levels) (t.fieldsOf name) cs
  | levels + 1, .variant name, variant tag member c =>
    tag < 2 ^ 32 ∧ ∃ m, (t.membersOf name)[tag]? = some m ∧ m.name = member ∧
      IsRead t levels m.type c
  | levels + 1, .array item, array cs => cs.length < 2 ^ 32 ∧ ∀ c ∈ cs, IsRead t levels item c
  | _ + 1, .optional _, null => True
  | levels + 1, .optional inner, given c => IsRead t levels inner c
  | _ + 1, .extension _, absent => True
  | levels + 1, .extension inner, present c => IsRead t levels inner c
  | _, _, _ => False

def isAbsent : Content → Bool
  | absent => true
  | _ => false

mutual

/-- Whether extensions are absent only as fields of a struct, with nothing but absent ones behind
them in that struct. -/
def omitsLast : Content → Bool
  | leaf _ => true
  | struct cs => fieldsOmitLast cs
  | variant _ _ c => c.omitsLast
  | array cs => itemsOmitLast cs
  | null => true
  | given c => c.omitsLast
  | absent => false
  | present c => c.omitsLast

def fieldsOmitLast : List (String × Content) → Bool
  | [] => true
  | (_, absent) :: rest => rest.all fun c => c.2.isAbsent
  | (_, c) :: rest => c.omitsLast && fieldsOmitLast rest

def itemsOmitLast : List Content → Bool
  | [] => true
  | c :: rest => c.omitsLast && itemsOmitLast rest

end

/-- Whether a content is no value of one of the given built-in types. -/
def Avoids (P : Builtin → Prop) : Content → Prop
  | leaf l => ¬P l.type
  | _ => True

theorem fieldsOmitLast_cons (h : c ≠ absent) (name : String) (cs : List (String × Content)) :
    fieldsOmitLast ((name, c) :: cs) = (c.omitsLast && fieldsOmitLast cs) := by
  cases c with
  | absent => exact absurd rfl h
  | _ => rfl

theorem FieldsRead.absent_of_all (h : FieldsRead p fs cs)
    (hall : cs.all (fun c => c.2.isAbsent) = true) :
    (∀ f ∈ fs, f.type.isExtension) ∧ cs = fs.map fun f => (f.name, Content.absent) := by
  induction h with
  | done => exact ⟨nofun, rfl⟩
  | @field f c fs cs hc hne h ih =>
    have hc := (Bool.and_eq_true_iff.mp hall).1
    cases c with
    | absent => exact absurd rfl hne
    | _ => cases hc
  | absent hf h ih =>
    obtain ⟨hfs, rfl⟩ := ih (Bool.and_eq_true_iff.mp hall).2
    exact ⟨List.forall_mem_cons.mpr ⟨hf, hfs⟩, rfl⟩

theorem FieldsRead.all_absent (h : FieldsRead p fs cs)
    (hm : ∀ f ∈ fs, Json.member? (fieldsJson cs) f.name = none) :
    cs.all (fun c => c.2.isAbsent) = true := by
  induction h with
  | done => rfl
  | @field f c fs cs hc hne h ih =>
    have hf := hm f List.mem_cons_self
    rw [fieldsJson_cons hne, Json.member?, List.lookup_cons_self] at hf
    cases hf
  | absent hf h ih => exact ih fun g hg => hm g (List.mem_cons_of_mem _ hg)

theorem FieldsRead.member?_of_not_mem (h : FieldsRead p fs cs) (hname : name ∉ fs.map Field.name) :
    Json.member? (fieldsJson cs) name = none := by
  induction h with
  | done => rfl
  | @field f c fs cs hc hne h ih =>
    have hne' : (name == f.name) = false := by
      apply beq_false_of_ne
      rintro rfl
      exact hname List.mem_cons_self
    rw [fieldsJson_cons hne, Json.member?, List.lookup_cons, hne']
    exact ih fun hmem => hname (List.mem_cons_of_mem _ hmem)
  | absent hf h ih => exact ih fun hmem => hname (List.mem_cons_of_mem _ hmem)

/-- Only an optional value that is read, or an absent extension, has the canonical form `null`. -/
theorem IsRead.toJson_ne_null {t : TypeTable} (h : IsRead t levels type c)
    (hw : type.isWrapped = false) : c.toJson ≠ .null := by
  cases levels with
  | zero => cases type <;> exact h.elim
  | succ levels =>
    cases c with
    | leaf l => exact l.toJson_ne_null
    | struct cs => exact nofun
    | variant tag member c => exact nofun
    | array cs => exact nofun
    | null => cases type <;> first | exact h.elim | cases hw
    | given c => cases type <;> first | exact h.elim | cases hw
    | absent => cases type <;> first | exact h.elim | cases hw
    | present c => cases type <;> first | exact h.elim | cases hw

end Content

namespace Decode
set_option autoImplicit true
open Content Wire

theorem takes_fieldsRead {value : Ty → Decode Json} {p : Ty → Content → Prop}
    (hv : ∀ f ∈ fs, TakesShown (value f.type) f.type fun c => p f.type c ∧ c ≠ absent)
    (hnodup : (fs.map Field.name).Nodup) (hdone : ∀ f ∈ fs, f.name ∉ done.map Prod.fst) :
    Takes (fields value done fs) fun used ms => ∃ cs, FieldsRead p fs cs ∧
      ms = done ++ fieldsJson cs ∧ FieldsAreSpelledBy cs used := by
  induction fs generalizing done with
  | nil => exact Takes.pure ⟨[], .done, (List.append_nil done).symm, rfl⟩
  | cons f fs ih =>
    intro s ms s' hs
    have hnames := List.nodup_cons.mp hnodup
    have hvs : ∀ g ∈ fs, TakesShown (value g.type) g.type fun c => p g.type c ∧ c ≠ absent :=
      fun g hg => hv g (List.mem_cons_of_mem _ hg)
    rw [fields_cons] at hs
    cases hend : f.type.isExtension && s.isEmpty with
    | true =>
      simp only [hend, if_true] at hs
      obtain ⟨used, hused, cs, hcs, rfl, hspelled⟩ :=
        ih hvs hnames.2 (fun g hg => hdone g (List.mem_cons_of_mem _ hg)) s ms s' hs
      have hf : f.type.isExtension := (Bool.and_eq_true_iff.mp hend).1
      exact ⟨used, hused, (f.name, absent) :: cs, .absent hf hcs, rfl, [], used, rfl, rfl, hspelled⟩
    | false =>
      simp only [hend] at hs
      obtain ⟨w, s₁, hw, hs⟩ := bind_eq_ok hs
      have hshown : f.type.isExtension → s.rest ≠ [] := by
        intro he hempty
        rw [he, Reader.isEmpty, hempty] at hend
        cases hend
      obtain ⟨used, hused, c, ⟨hc, hne⟩, rfl, hspelled⟩ :=
        hv f List.mem_cons_self s w s₁ hshown (part_eq_ok hw)
      have hnew := not_mem_append_field hnodup hdone c.toJson
      rw [Json.insert_of_not_mem (hdone f List.mem_cons_self)] at hs
      obtain ⟨used', hused', cs, hcs, rfl, hfields⟩ := ih hvs hnames.2 hnew s₁ ms s' hs
      refine ⟨used ++ used', ?_, (f.name, c) :: cs, .field hc hne hcs, ?_, used, used', rfl,
        hspelled, hfields⟩
      · rw [hused, hused', List.append_assoc]
      · rw [fieldsJson_cons hne, List.append_assoc, List.singleton_append]

theorem takes_of_shown {t : TypeTable} {config : Config}
    (h : TakesShown (value t config levels type) type fun c =>
      IsRead t levels type c ∧ c ≠ absent) :
    Takes (value t config levels type) (IsFormOf (IsRead t levels type)) := by
  intro s w s' hs
  by_cases hshown : type.isExtension → s.rest ≠ []
  · obtain ⟨used, hused, c, hc, hw, hspelled⟩ := h s w s' hshown hs
    exact ⟨used, hused, c, hc.1, hw, hspelled⟩
  · obtain ⟨he, hempty⟩ := Classical.not_imp.mp hshown
    have hempty : s.isEmpty = true := List.isEmpty_iff.mpr (Classical.not_not.mp hempty)
    cases type with
    | extension inner =>
      cases levels with
      | zero => cases hs
      | succ levels =>
        rw [value, extension, atEnd_bind, hempty] at hs
        cases hs
        exact ⟨[], rfl, absent, trivial, rfl, rfl⟩
    | _ => cases he

theorem takes_reading {t : TypeTable} {config : Config} (hstrict : config.strictBool = true)
    (hfields : t.Throughout t.HasDistinctFields type) (levels : Nat) :
    TakesShown (value t config levels type) type fun c => IsRead t levels type c ∧ c ≠ absent := by
  induction levels generalizing type with
  | zero =>
    intro s w s' _ hs
    cases hs
  | succ levels ih =>
    -- a part may also be an extension that is not there
    have hpart {inner : Ty} (hp : t.Part type inner) :
        Takes (value t config levels inner) (IsFormOf (IsRead t levels inner)) :=
      takes_of_shown (ih (hfields.part hp))
    cases type with
    | builtin b =>
      intro s w s' _ hs
      rw [value, hstrict] at hs
      have htakes := (Leaf.takes_read b).map (Q := fun used w => ∃ l, l.toJson = w ∧
        Leaf.IsRead b used l) fun used l hl => ⟨l, rfl, hl⟩
      obtain ⟨used, hused, l, rfl, hl⟩ := takes_wire htakes s w s' hs
      exact ⟨used, hused, leaf l, ⟨⟨hl.type_eq, hl.representable, hl.valid⟩, by simp⟩, rfl,
        hl.spelled⟩
    | struct name =>
      intro s w s' _ hs
      obtain ⟨ms, s₁, hms, hs⟩ := bind_eq_ok hs
      cases hs
      obtain ⟨used, hused, cs, hcs, rfl, hspelled⟩ := takes_fieldsRead (p := IsRead t levels)
        (fun f hf => ih (hfields.part (.field hf))) hfields.here (fun _ _ => List.not_mem_nil)
        s ms s' hms
      exact ⟨used, hused, .struct cs, ⟨hcs, by simp⟩, rfl, hspelled⟩
    | variant name =>
      intro s w s' _ hs
      obtain ⟨used, hused, -, ⟨tag, m, c, rfl, htag, hm, hc⟩, rfl, hspelled⟩ :=
        takes_variant (p := IsRead t levels) (fun m hm => hpart (.member hm)) s w s' hs
      exact ⟨used, hused, .variant tag m.name c, ⟨⟨htag, m, hm, rfl, hc⟩, by simp⟩, rfl, hspelled⟩
    | array item =>
      intro s w s' _ hs
      obtain ⟨used, hused, -, ⟨cs, rfl, hlen, hcs⟩, rfl, hspelled⟩ :=
        takes_array (hpart .item) s w s' hs
      exact ⟨used, hused, .array cs, ⟨⟨hlen, hcs⟩, by simp⟩, rfl, hspelled⟩
    | optional inner =>
      intro s w s' _ hs
      obtain ⟨used, hused, -, rfl | ⟨c, rfl, hc⟩, rfl, hspelled⟩ :=
        takes_optional (hpart .given) s w s' hs
      · exact ⟨used, hused, null, ⟨trivial, by simp⟩, rfl, hspelled⟩
      · exact ⟨used, hused, given c, ⟨hc, by simp⟩, rfl, hspelled⟩
    | extension inner =>
      intro s w s' hshown hs
      have hempty : s.isEmpty = false := List.isEmpty_eq_false_iff.mpr (hshown rfl)
      rw [value, extension, atEnd_bind, hempty] at hs
      obtain ⟨used, hused, c, hc, rfl, hspelled⟩ := hpart .present s w s' hs
      exact ⟨used, hused, present c, ⟨hc, by simp⟩, rfl, hspelled⟩

end Decode

namespace Content
set_option autoImplicit true

/-- Whether an attempt to get `a` back succeeds if `last` holds, and otherwise fails or gives
something with more bytes. -/
def Restates (bytes : α → Bytes) (last : Bool) (a : α) (o : Option α) : Prop :=
  if last then o = some a else ∀ b, o = some b → (bytes a).length < (bytes b).length

namespace Restates

theorem of_eq {bytes : α → Bytes} (h : o = some a) : Restates bytes true a o := h

theorem le {bytes : α → Bytes} (h : Restates bytes last a o) (hb : o = some b) :
    (bytes a).length ≤ (bytes b).length := by
  cases last with
  | true =>
    cases Option.some.inj (h.symm.trans hb)
    exact Nat.le_refl _
  | false => exact Nat.le_of_lt (h b hb)

theorem map {bytes : α → Bytes} {bytes' : β → Bytes} {f : α → β} (h : Restates bytes last a o)
    (hf : ∀ b, o = some b → (bytes a).length < (bytes b).length →
      (bytes' (f a)).length < (bytes' (f b)).length) :
    Restates bytes' last (f a) (o.map f) := by
  cases last with
  | true =>
    have h : o = some a := h
    subst h
    rfl
  | false =>
    intro c hc
    obtain ⟨b, hb, rfl⟩ := Option.map_eq_some_iff.mp hc
    exact hf b hb (h b hb)

theorem behind {bytes : α → Bytes} {bytes' : β → Bytes} {f : α → β} (h : Restates bytes last a o)
    (front : Bytes) (hf : ∀ a, bytes' (f a) = front ++ bytes a) :
    Restates bytes' last (f a) (o.map f) := by
  refine h.map fun b _ hlt => ?_
  rw [hf, hf, List.length_append, List.length_append]
  exact Nat.add_lt_add_left hlt _

theorem pair {bytes : α → Bytes} {bytes' : β → Bytes} {bytes'' : γ → Bytes} {f : α → β → γ}
    (h : Restates bytes last a o) (h' : Restates bytes' last' b o')
    (hf : ∀ a b, bytes'' (f a b) = bytes a ++ bytes' b) :
    Restates bytes'' (last && last') (f a b) (do return f (← o) (← o')) := by
  cases hlast : last && last' with
  | true =>
    obtain ⟨rfl, rfl⟩ := Bool.and_eq_true_iff.mp hlast
    have h : o = some a := h
    have h' : o' = some b := h'
    subst h h'
    rfl
  | false =>
    intro d hd
    obtain ⟨a', ha', hd⟩ := Option.bind_eq_some_iff.mp hd
    obtain ⟨b', hb', hd⟩ := Option.bind_eq_some_iff.mp hd
    cases hd
    rw [hf, hf, List.length_append, List.length_append]
    have hle := h.le ha'
    have hle' := h'.le hb'
    cases last with
    | false =>
      have hlt := h a' ha'
      omega
    | true =>
      subst hlast
      have hlt := h' b' hb'
      omega

theorem iff {bytes : α → Bytes} (h : Restates bytes last a o) :
    (∃ b, o = some b ∧ bytes b = bytes a) ↔ last := by
  cases last with
  | true => exact ⟨fun _ => rfl, fun _ => ⟨a, h, rfl⟩⟩
  | false =>
    refine ⟨?_, nofun⟩
    rintro ⟨b, hb, hbytes⟩
    have hlt := h b hb
    rw [hbytes] at hlt
    exact absurd hlt (Nat.lt_irrefl _)

end Restates

theorem restates_items {item? : Json → Option Content} {P : Bytes → Content → Prop}
    {p : Content → Prop}
    (hv : ∀ c after, p c → c.Everywhere P after → Restates bytes c.omitsLast c (item? c.toJson))
    (h : ∀ c ∈ cs, p c) (hP : ItemsEverywhere P after cs) :
    Restates itemsBytes (itemsOmitLast cs) cs ((itemsJson cs).mapM item?) := by
  induction cs with
  | nil => exact .of_eq rfl
  | cons c cs ih =>
    rw [itemsJson, List.mapM_cons]
    exact .pair (hv c _ (h c List.mem_cons_self) hP.1)
      (ih (fun d hd => h d (List.mem_cons_of_mem _ hd)) hP.2) fun _ _ => rfl

/-- Behind an absent extension nothing is there. -/
theorem member?_of_behind (h : fieldsOfJson? value? members true fs = some cs) :
    ∀ f ∈ fs, Json.member? members f.name = none := by
  induction fs generalizing cs with
  | nil => exact nofun
  | cons f fs ih =>
    rcases fieldsOfJson?_cons h with ⟨hb, -⟩ | ⟨hb, -⟩ | ⟨hm, -, cs', hcs, -⟩
    · cases hb
    · cases hb
    · exact List.forall_mem_cons.mpr ⟨hm, ih hcs⟩

theorem restates_fields {value? : Ty → Json → Option Content} {P : Bytes → Content → Prop}
    {p : Ty → Content → Prop}
    (hv : ∀ f ∈ fs, ∀ c after, p f.type c → c.Everywhere P after →
      Restates bytes c.omitsLast c (value? f.type c.toJson))
    (h : FieldsRead p fs cs) (hP : FieldsEverywhere P after cs)
    (hnodup : (fs.map Field.name).Nodup)
    (hm : ∀ f ∈ fs, Json.member? members f.name = Json.member? (fieldsJson cs) f.name) :
    Restates fieldsBytes (fieldsOmitLast cs) cs (fieldsOfJson? value? members false fs) := by
  induction h with
  | done => exact .of_eq rfl
  | @field f c fs cs hc hne h ih =>
    have hmf : Json.member? members f.name = some c.toJson := by
      rw [hm f List.mem_cons_self, fieldsJson_cons hne, Json.member?, List.lookup_cons_self]
    rw [fieldsOfJson?_there hmf, fieldsOmitLast_cons hne]
    have hrest := ih (fun g hg => hv g (List.mem_cons_of_mem _ hg)) hP.2
      (List.nodup_cons.mp hnodup).2 (member?_fieldsJson_tail hne hnodup hm)
    have hfield := hv f List.mem_cons_self c _ hc hP.1
    exact hfield.pair (f := fun c cs => (f.name, c) :: cs) hrest fun _ _ => rfl
  | @absent f fs cs hf h ih =>
    have hnone : Json.member? members f.name = none := by
      rw [hm f List.mem_cons_self]
      exact h.member?_of_not_mem (List.nodup_cons.mp hnodup).1
    have hrest : ∀ g ∈ fs, Json.member? members g.name = Json.member? (fieldsJson cs) g.name :=
      fun g hg => hm g (List.mem_cons_of_mem _ hg)
    have hlast : fieldsOmitLast ((f.name, absent) :: cs) = cs.all fun c => c.2.isAbsent := rfl
    rw [fieldsOfJson?_extension hnone hf, hlast]
    cases hall : cs.all fun c => c.2.isAbsent with
    | true =>
      obtain ⟨hfs, rfl⟩ := h.absent_of_all hall
      have hmembers : ∀ g ∈ fs, Json.member? members g.name = none := by
        intro g hg
        rw [hrest g hg, fieldsJson_absent]
        rfl
      rw [fieldsOfJson?_absent hmembers hfs]
      exact .of_eq rfl
    | false =>
      intro cs' hcs
      obtain ⟨cs', hbehind, -⟩ := Option.map_eq_some_iff.mp hcs
      have hmembers := member?_of_behind hbehind
      rw [h.all_absent fun g hg => (hrest g hg).symm.trans (hmembers g hg)] at hall
      cases hall

theorem length_of_ofJson?_null {t : TypeTable} (h : ofJson? t levels type .null = some c)
    (he : type.isExtension = false) : 0 < c.bytes.length := by
  cases levels with
  | zero => cases h
  | succ levels =>
    cases type with
    | builtin b =>
      simp only [ofJson?, Leaf.toOption_parse_null] at h
      cases h
    | optional inner =>
      cases h
      exact Nat.zero_lt_one
    | extension inner => cases he
    | _ => cases h

/-- The canonical form of a content that is read has that content just if extensions are absent only
as last fields; otherwise it has none, or one with more bytes. -/
theorem IsRead.restates {t : TypeTable} (h : IsRead t levels type c)
    (hfields : t.Throughout t.HasDistinctFields type)
    (hmembers : t.Throughout t.HasDistinctMembers type)
    (hnested : t.Throughout Ty.IsWellNested type)
    (hP : c.Everywhere (fun _ => Avoids fun b => b.IsFloat ∨ b.IsToken) after) :
    Restates bytes c.omitsLast c (ofJson? t levels type c.toJson) := by
  induction levels generalizing type c after with
  | zero => cases type <;> exact h.elim
  | succ levels ih =>
    -- parts meet all conditions that the whole meets
    have hpart {inner : Ty} {c : Content} {after : Bytes} (hp : t.Part type inner)
        (hc : IsRead t levels inner c)
        (hPc : c.Everywhere (fun _ => Avoids fun b => b.IsFloat ∨ b.IsToken) after) :
        Restates bytes c.omitsLast c (ofJson? t levels inner c.toJson) :=
      ih hc (hfields.part hp) (hmembers.part hp) (hnested.part hp) hPc
    cases type with
    | builtin b =>
      cases c with
      | leaf l =>
        obtain ⟨rfl, hrepr, hvalid⟩ := h
        obtain ⟨hfloat, htoken⟩ := not_or.mp hP
        have hparse := Leaf.parse_toJson (hvalid htoken) hrepr hfloat
        simp only [ofJson?, toJson, hparse]
        exact .of_eq rfl
      | _ => exact h.elim
    | struct name =>
      cases c with
      | struct cs =>
        simp only [ofJson?, toJson, structOfJson?]
        exact (restates_fields (fun f hf c after hc hPc => hpart (.field hf) hc hPc) h hP.2
          hfields.here fun _ _ => rfl).map fun _ _ hlt => hlt
      | _ => exact h.elim
    | variant name =>
      cases c with
      | variant tag member c =>
        obtain ⟨htag, m, hm, rfl, hc⟩ := h
        have hfind := Result.findIdx?_of_nodup hmembers.here hm
        have hmem : m ∈ t.membersOf name := List.mem_of_getElem? hm
        have hchosen : ofJson? t (levels + 1) (.variant name) (.arr [.str m.name, c.toJson]) =
            (ofJson? t levels m.type c.toJson).map (variant tag m.name) := by
          simp only [ofJson?, variantOfJson?, hfind, hm, Option.bind_eq_bind, Option.bind_some,
            if_neg (Nat.not_le_of_lt htag)]
          exact Option.map_eq_bind.symm
        rw [toJson, hchosen]
        exact (hpart (.member hmem) hc hP.2).behind (Wire.varuint tag) fun _ => rfl
      | _ => exact h.elim
    | array item =>
      cases c with
      | array cs =>
        have hitems := restates_items (fun c after hc hPc => hpart .item hc hPc) h.2 hP.2
        simp only [ofJson?, toJson, arrayOfJson?, length_itemsJson, if_neg (Nat.not_le_of_lt h.1)]
        refine hitems.map fun ds hds hlt => ?_
        have hlen : ds.length = cs.length :=
          (Result.length_of_mapM hds).trans (length_itemsJson cs)
        rw [bytes, bytes, hlen, List.length_append, List.length_append]
        exact Nat.add_lt_add_left hlt _
      | _ => exact h.elim
    | optional inner =>
      cases c with
      | null => exact .of_eq rfl
      | given c =>
        have hne : c.toJson ≠ .null := IsRead.toJson_ne_null h hnested.here.1
        have hgiven : ofJson? t (levels + 1) (.optional inner) c.toJson =
            (ofJson? t levels inner c.toJson).map given := by
          rw [ofJson?, optionalOfJson?]
          exact hne
        rw [toJson, hgiven]
        exact (hpart .given h hP.2).behind [1] fun _ => rfl
      | _ => exact h.elim
    | extension inner =>
      cases c with
      | absent =>
        intro c' hc
        obtain ⟨d, hd, rfl⟩ := Option.map_eq_some_iff.mp hc
        exact length_of_ofJson?_null (c := d) hd hnested.here.1
      | present c =>
        exact (hpart .present h hP.2).map fun _ _ hlt => hlt
      | _ => exact h.elim

end Content

namespace Contract
set_option autoImplicit true

/-- Decoding gives the canonical form of a content that the bytes spell, if truth values are read
from 0 and 1 only. Where that content holds no
float and no token, encoding gives its wire form just if extensions are absent only as the last
fields of structs. -/
theorem encode_decode_iff_omitsLast {d : Document} {t : TypeTable}
    (hbuild : TypeTable.build d = .ok t) (hview : t.view name = .ok type)
    (hfields : t.Throughout t.HasDistinctFields type)
    (hmembers : t.Throughout t.HasDistinctMembers type)
    (hdecode : (Contract.mk d t).decode config name bs = .ok w)
    (hbools : ∃ v, (Contract.mk d t).decode { config with strictBool := true } name bs = .ok v) :
    ∃ c, Content.IsRead t config.levels type c ∧ c.toJson = w ∧ c.IsSpelledBy bs ∧
      (c.bytes = bs ∨ c.bytes.length < bs.length) ∧
      (c.Everywhere (fun _ => Content.Avoids fun b => b.IsFloat ∨ b.IsToken) [] →
        ((Contract.mk d t).encode config name w = .ok c.bytes ↔ c.omitsLast)) := by
  obtain ⟨v, hstrict⟩ := hbools
  obtain ⟨p, hrun⟩ := (decode_eq_ok hview).mp hdecode
  obtain ⟨q, hrun'⟩ := (decode_eq_ok hview).mp hstrict
  have hwithin : Config.IsWithin { config with strictBool := true } config :=
    ⟨Nat.le_refl _, Nat.le_refl _, fun _ => rfl⟩
  -- strictness does not change what is decoded
  have hsame := Decode.isPartOf_value hwithin (Nat.le_refl config.levels) type _ _ _ hrun'
  cases hsame.symm.trans hrun
  have hnested := TypeTable.isWellNested_of_view hbuild hview
  obtain ⟨used, hused, c, hc, rfl, hspelled⟩ :=
    Decode.takes_of_shown (Decode.takes_reading rfl hfields _) _ _ _ hrun'
  have hbs : bs = used := hused.trans (List.append_nil used)
  subst hbs
  refine ⟨c, hc, rfl, hspelled, hspelled.eq_or_shorter, fun hplain => ?_⟩
  have hrestates := hc.restates hfields hmembers hnested hplain
  exact (encode_eq_ok hview).trans hrestates.iff

def laterDocument : Document :=
  { structs := [⟨"mark", "", [⟨"at", "uint8$"⟩]⟩],
    variants? := some [⟨"choice", ["uint8$"]⟩] }

def laterTypes : TypeTable where
  structs := [⟨"mark", [⟨"at", .extension (.builtin (.uint .w8))⟩]⟩]
  variants := [⟨"choice", [⟨"uint8$", .extension (.builtin (.uint .w8))⟩]⟩]
  meanings :=
    { names := [("uint8$", .extension (.builtin (.uint .w8))), ("uint8", .builtin (.uint .w8)),
        ("mark", .struct "mark"), ("choice", .variant "choice")]
      types := [.struct "mark", .variant "choice", .builtin (.uint .w8),
        .extension (.builtin (.uint .w8))] }

theorem build_later : TypeTable.build laterDocument = .ok laterTypes := by decide +kernel

theorem encode_decode_iff_omitsLast_mark :
    (Contract.mk laterDocument laterTypes).decode {} "mark" [] = .ok (.obj []) ∧
    (Contract.mk laterDocument laterTypes).encode {} "mark" (.obj []) = .ok [] := by
  have hview : laterTypes.view "mark" = .ok (.struct "mark") := rfl
  have hdecode : (Contract.mk laterDocument laterTypes).decode {} "mark" [] = .ok (.obj []) := rfl
  have hthroughout {P : Ty → Prop} (hP : ∀ u ∈ laterTypes.meanings.types, P u) :
      laterTypes.Throughout P (.struct "mark") :=
    .of_closed laterTypes.meanings.types (by decide) (by decide) hP
  obtain ⟨c, hc, hjson, -, -, hencode⟩ :=
    encode_decode_iff_omitsLast build_later hview (hthroughout (by decide))
      (hthroughout (by decide)) hdecode ⟨_, rfl⟩
  refine ⟨hdecode, ?_⟩
  cases c with
  | struct cs =>
    have hcs : Content.FieldsRead (Content.IsRead laterTypes 64)
      [⟨"at", .extension (.builtin (.uint .w8))⟩] cs := hc
    cases hcs with
    | field _ hne _ =>
      rw [Content.toJson, Content.fieldsJson_cons hne] at hjson
      cases hjson
    | absent _ hcs =>
      cases hcs with
      | done => exact (hencode ⟨trivial, trivial, trivial⟩).mpr rfl
  | _ => exact hc.elim

/-- An extension that is absent by itself, or as the member of a variant, is decoded as `null`, and
`null` is no value to encode there. -/
theorem not_encode_decode_alone :
    TypeTable.build laterDocument = .ok laterTypes ∧
    laterTypes.view "uint8$" = .ok (.extension (.builtin (.uint .w8))) ∧
    (Contract.mk laterDocument laterTypes).decode {} "uint8$" [] = .ok .null ∧
    (Contract.mk laterDocument laterTypes).encode {} "uint8$" .null ≠ .ok [] ∧
    (Contract.mk laterDocument laterTypes).decode {} "choice" [0] =
      .ok (.arr [.str "uint8$", .null]) ∧
    (Contract.mk laterDocument laterTypes).encode {} "choice" (.arr [.str "uint8$", .null]) ≠
      .ok [0] :=
  ⟨build_later, rfl, rfl, nofun, rfl, nofun⟩

end Contract
end ChainKit.Abi
