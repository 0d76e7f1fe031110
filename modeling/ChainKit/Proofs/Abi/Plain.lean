import ChainKit.Proofs.Abi.RoundTrip

namespace ChainKit.Abi

theorem Leaf.toBytes_ne_nil (l : Leaf) : l.toBytes ≠ [] := by
  cases l with
  | int w i => cases w <;> exact List.cons_ne_nil _ _
  | uint w n => cases w <;> exact List.cons_ne_nil _ _
  | varint i => exact Wire.varuint_ne_nil _
  | varuint n => exact Wire.varuint_ne_nil n
  | bytes bs => exact List.append_ne_nil_of_left_ne_nil (Wire.varuint_ne_nil _) _
  | string s => exact List.append_ne_nil_of_left_ne_nil (Wire.varuint_ne_nil _) _
  | float128 b => exact List.ne_nil_of_length_eq_add_one b.length_eq
  | checksum size c =>
    have hlen : c.bytes.length = size.bytes := c.length_eq
    cases size <;> exact List.ne_nil_of_length_eq_add_one hlen
  | _ => exact List.cons_ne_nil _ _

/-- Whether each value of a type takes bytes, whatever is declared. -/
def Ty.TakesBytes : Ty → Prop
  | .struct _ | .extension _ => False
  | _ => True

instance : DecidablePred Ty.TakesBytes
  | .struct _ | .extension _ => .isFalse id
  | .builtin _ | .variant _ | .array _ | .optional _ => .isTrue trivial

namespace TypeTable

/-- Whether each value of a type takes bytes: a struct does if its first field does. -/
def TakesBytes (t : TypeTable) : Ty → Prop
  | .struct name => ∃ f ∈ (t.fieldsOf name).head?, f.type.TakesBytes
  | type => type.TakesBytes

instance (t : TypeTable) : DecidablePred t.TakesBytes
  | .struct name => inferInstanceAs (Decidable (∃ f ∈ (t.fieldsOf name).head?, f.type.TakesBytes))
  | .extension _ => .isFalse id
  | .builtin _ | .variant _ | .array _ | .optional _ => .isTrue trivial

/-- Whether the outermost part is told apart whatever follows it. -/
def IsPlain (t : TypeTable) : Ty → Prop
  | .builtin b => b ≠ .timePoint
  | .array item => t.TakesBytes item
  | .extension _ => False
  | .struct _ | .variant _ | .optional _ => True

instance (t : TypeTable) : DecidablePred t.IsPlain
  | .builtin b => inferInstanceAs (Decidable (b ≠ .timePoint))
  | .array item => inferInstanceAs (Decidable (t.TakesBytes item))
  | .extension _ => .isFalse id
  | .struct _ | .variant _ | .optional _ => .isTrue trivial

end TypeTable

namespace Ty

def IsGiven : Ty → Prop
  | .optional _ => False
  | _ => True

instance : DecidablePred IsGiven
  | .optional _ => .isFalse id
  | .builtin _ | .struct _ | .variant _ | .array _ | .extension _ => .isTrue trivial

/-- The type of the value that an extension may hold, and any other type itself. -/
def bare : Ty → Ty
  | .extension inner => inner
  | type => type

/-- A type and those that it wraps. -/
def layers : Ty → List Ty
  | .array inner => .array inner :: inner.layers
  | .optional inner => .optional inner :: inner.layers
  | .extension inner => .extension inner :: inner.layers
  | type => [type]

end Ty

namespace TypeTable
set_option autoImplicit true

/-- Whether a field at the end of the data is told apart: it is plain, or an extension by a plain
value that takes bytes. -/
structure IsPlainField (t : TypeTable) (type : Ty) : Prop where
  plain : t.Throughout t.IsPlain type.bare
  takesBytes : type.isExtension → t.TakesBytes type.bare

/-- Whether a struct at the end of the data comes back from its bytes in the levels that it
takes. -/
structure HasPlainFields (t : TypeTable) (s : String) : Prop where
  distinct : t.Throughout t.HasDistinctFields (.struct s)
  given : t.Throughout Ty.IsGiven (.struct s)
  plain : ∀ f ∈ t.fieldsOf s, t.IsPlainField f.type

def ofStructs (structs : List StructType) : TypeTable := ⟨structs, [], default⟩

def occurring (structs : List StructType) : List Ty :=
  structs.flatMap fun s => .struct s.name :: s.fields.flatMap fun f => f.type.layers

def below (structs : List StructType) (s : String) : List Ty :=
  (occurring structs).filter fun u => !u.isExtension && u != .struct s

theorem HasPlainFields.of_structs {t : TypeTable} (ht : t.structs = ss) (hv : t.variants = [])
    (hs : .struct s ∈ occurring ss)
    (hclosed : ∀ u ∈ occurring ss, ∀ part ∈ (ofStructs ss).partsOf u, part ∈ occurring ss)
    (hdistinct : ∀ u ∈ occurring ss, (ofStructs ss).HasDistinctFields u)
    (hgiven : ∀ u ∈ occurring ss, u.IsGiven)
    (hbelow : ∀ u ∈ below ss s, ∀ part ∈ (ofStructs ss).partsOf u, part ∈ below ss s)
    (hplain : ∀ u ∈ below ss s, (ofStructs ss).IsPlain u)
    (hfields : ∀ f ∈ (ofStructs ss).fieldsOf s, f.type.bare ∈ below ss s ∧
      (f.type.isExtension → (ofStructs ss).TakesBytes f.type.bare)) : t.HasPlainFields s := by
  obtain ⟨structs, variants, meanings⟩ := t
  subst ht hv
  refine ⟨.of_closed _ hs hclosed hdistinct, .of_closed _ hs hclosed hgiven, ?_⟩
  intro f hf
  obtain ⟨hmem, hbytes⟩ := hfields f hf
  exact ⟨.of_closed _ hmem hbelow hplain, hbytes⟩

end TypeTable

namespace Content
set_option autoImplicit true

theorem HasType.bytes_ne_nil {t : TypeTable} (h : HasType t levels type c)
    (hb : type.TakesBytes) : c.bytes ≠ [] := by
  cases levels with
  | zero => exact h.elim
  | succ levels =>
    cases type with
    | struct name => exact hb.elim
    | extension inner => exact hb.elim
    | _ =>
      cases c with
      | leaf l => exact l.toBytes_ne_nil
      | variant tag member c =>
        exact List.append_ne_nil_of_left_ne_nil (Wire.varuint_ne_nil tag) _
      | array cs => exact List.append_ne_nil_of_left_ne_nil (Wire.varuint_ne_nil _) _
      | null => exact List.cons_ne_nil _ _
      | given c => exact List.cons_ne_nil _ _
      | _ => exact h.elim

theorem HasType.bytes_ne_nil_of_takesBytes {t : TypeTable} (h : HasType t levels type c)
    (hb : t.TakesBytes type) : c.bytes ≠ [] := by
  cases type with
  | struct name =>
    cases levels with
    | zero => exact h.elim
    | succ levels =>
      cases c with
      | struct cs =>
        obtain ⟨f, hf, htype⟩ := hb
        have hcs : FieldsHave (HasType t levels) (t.fieldsOf name) cs := h
        cases hfields : t.fieldsOf name with
        | nil =>
          rw [hfields] at hf
          cases hf
        | cons g fs =>
          rw [hfields] at hf hcs
          cases hf
          cases hcs with
          | field hc _ => exact List.append_ne_nil_of_left_ne_nil (hc.bytes_ne_nil htype) _
          | absent hext =>
            have hf := hext f List.mem_cons_self
            cases htypes : f.type with
            | extension inner =>
              rw [htypes] at htype
              exact htype.elim
            | _ =>
              rw [htypes] at hf
              cases hf
      | _ => exact h.elim
  | _ => exact h.bytes_ne_nil hb

theorem length_le_itemsBytes (h : ∀ c ∈ cs, c.bytes ≠ []) : cs.length ≤ (itemsBytes cs).length := by
  induction cs with
  | nil => exact Nat.le_refl 0
  | cons c cs ih =>
    have hc := List.length_pos_iff.mpr (h c List.mem_cons_self)
    have hcs := ih fun d hd => h d (List.mem_cons_of_mem _ hd)
    rw [itemsBytes, List.length_append, List.length_cons]
    omega

theorem FieldsHave.cons_of_not_extension (h : FieldsHave p (f :: fs) cs)
    (hf : ¬f.type.isExtension) : ∃ c cs', cs = (f.name, c) :: cs' ∧ p f.type c ∧
      FieldsHave p fs cs' := by
  cases h with
  | field hc h => exact ⟨_, _, rfl, hc, h⟩
  | absent hext => exact absurd (hext f List.mem_cons_self) hf

theorem not_isExtension_of_plain {t : TypeTable} (h : t.IsPlain type) : ¬type.isExtension := by
  cases type with
  | extension inner => exact h.elim
  | _ => exact nofun

theorem fieldsEverywhere_of_plain {P : Bytes → Content → Prop} (h : FieldsHave p fs cs)
    (hf : ∀ f ∈ fs, ¬f.type.isExtension)
    (hp : ∀ f ∈ fs, ∀ c after, p f.type c → c.Everywhere P after) (after : Bytes) :
    FieldsEverywhere P after cs := by
  induction fs generalizing cs with
  | nil =>
    cases h
    all_goals trivial
  | cons f fs ih =>
    obtain ⟨c, cs, rfl, hc, h⟩ := h.cons_of_not_extension (hf f List.mem_cons_self)
    refine ⟨hp f List.mem_cons_self c _ hc, ih h ?_ ?_⟩
    · exact fun g hg => hf g (List.mem_cons_of_mem _ hg)
    · exact fun g hg => hp g (List.mem_cons_of_mem _ hg)

/-- A content of a plain type is readable, whatever follows. -/
theorem HasType.everywhere_of_plain {t : TypeTable} (h : HasType t levels type c)
    (hp : t.Throughout t.IsPlain type) (limit : Nat) (after : Bytes) :
    c.Everywhere (IsReadable limit) after := by
  induction levels generalizing type c after with
  | zero => exact h.elim
  | succ levels ih =>
    cases type with
    | builtin b =>
      cases c with
      | leaf l =>
        obtain ⟨rfl, -⟩ := h
        refine ⟨trivial, trivial, ?_⟩
        cases l with
        | timePoint t => exact absurd rfl hp.here
        | _ => trivial
      | _ => exact h.elim
    | struct name =>
      cases c with
      | struct cs =>
        have hcs : FieldsHave (HasType t levels) (t.fieldsOf name) cs := h
        refine ⟨⟨trivial, trivial, trivial⟩, fieldsEverywhere_of_plain hcs ?_ ?_ after⟩
        · exact fun f hf => not_isExtension_of_plain (hp.part (.field hf)).here
        · exact fun f hf c after hc => ih hc (hp.part (.field hf)) after
      | _ => exact h.elim
    | variant name =>
      cases c with
      | variant tag member c =>
        obtain ⟨-, -, m, hm, hc⟩ := h
        have hmem : m ∈ t.membersOf name := List.mem_of_getElem? hm
        exact ⟨⟨trivial, trivial, trivial⟩, ih hc (hp.part (.member hmem)) after⟩
      | _ => exact h.elim
    | array item =>
      cases c with
      | array cs =>
        have hshown : ∀ c ∈ cs, c.bytes ≠ [] :=
          fun c hc => (h.2 c hc).bytes_ne_nil_of_takesBytes hp.here
        have hlength : cs.length ≤ (itemsBytes cs ++ after).length := by
          rw [List.length_append]
          exact Nat.le_add_right_of_le (length_le_itemsBytes hshown)
        refine ⟨⟨trivial, .inr hlength, trivial⟩, ?_⟩
        exact itemsEverywhere (fun c hc after => ih (h.2 c hc) (hp.part .item) after) after
      | _ => exact h.elim
    | optional inner =>
      cases c with
      | null => exact ⟨trivial, trivial, trivial⟩
      | given c =>
        have hc : HasType t levels inner c := h
        exact ⟨⟨trivial, trivial, trivial⟩, ih hc (hp.part .given) after⟩
      | _ => exact h.elim
    | extension inner => exact hp.here.elim

theorem HasType.everywhere_of_plainField {t : TypeTable} (h : HasType t levels type c)
    (hp : t.IsPlainField type) (limit : Nat) (after : Bytes) :
    c.Everywhere (IsReadable limit) after := by
  cases type with
  | extension inner =>
    cases levels with
    | zero => exact h.elim
    | succ levels =>
      cases c with
      | present c =>
        have hc : HasType t levels inner c := h
        have hne := hc.bytes_ne_nil_of_takesBytes (hp.takesBytes rfl)
        have hshown := List.append_ne_nil_of_left_ne_nil hne after
        exact ⟨⟨hshown, trivial, trivial⟩, hc.everywhere_of_plain hp.plain limit after⟩
      | _ => exact h.elim
  | _ => exact h.everywhere_of_plain hp.plain limit after

theorem HasType.everywhere_of_plainFields {t : TypeTable}
    (h : HasType t levels (.struct name) c) (hp : ∀ f ∈ t.fieldsOf name, t.IsPlainField f.type)
    (limit : Nat) : c.Everywhere (IsReadable limit) [] := by
  cases levels with
  | zero => exact h.elim
  | succ levels =>
    cases c with
    | struct cs =>
      refine ⟨⟨trivial, trivial, trivial⟩, ?_⟩
      have hcs : FieldsHave (HasType t levels) (t.fieldsOf name) cs := h
      clear h
      generalize t.fieldsOf name = fs at hp hcs
      induction hcs with
      | done => trivial
      | field hc _ ih =>
        exact ⟨hc.everywhere_of_plainField (hp _ List.mem_cons_self) limit _,
          ih fun g hg => hp g (List.mem_cons_of_mem _ hg)⟩
      | @absent fs hext =>
        clear hext hp
        induction fs with
        | nil => trivial
        | cons f fs ih =>
          have hafter : fieldsBytes (fs.map fun g => (g.name, absent)) ++ [] = [] := by
            rw [fieldsBytes_absent, List.append_nil]
          exact ⟨⟨hafter, trivial, trivial⟩, ih⟩
    | _ => exact h.elim

theorem leavesRoom_of_given {t : TypeTable} (h : t.Throughout Ty.IsGiven type) (v : Json) :
    LeavesRoom t levels type v := by
  fun_induction LeavesRoom t levels type v with
  | case1 levels name members ih =>
    intro f hf
    have hfield := h.part (.field hf)
    refine ⟨?_, fun v _ => ih f v hfield⟩
    intro _ inner htype
    rw [htype] at hfield
    exact hfield.here.elim
  | case2 levels name member v ih => exact fun m hm _ => ih m (h.part (.member hm))
  | case3 levels item vs ih => exact fun v _ => ih v (h.part .item)
  | case5 levels inner => exact h.here.elim
  | case6 levels inner v ih => exact ih (h.part .present)
  | _ => trivial

end Content

namespace Contract
set_option autoImplicit true

/-- A struct of plain fields, none of them optional, comes back in its canonical form within the
limits of its encoding. -/
theorem decode_encode_of_plain {c : Contract} (hview : c.types.view name = .ok (.struct s))
    (h : c.types.HasPlainFields s) (hencode : c.encode config name v = .ok bs) :
    ∃ content, Content.ofJson? c.types config.levels (.struct s) v = some content ∧
      c.decode config name bs = .ok content.toJson := by
  obtain ⟨content, hc, rfl⟩ := (encode_eq_ok hview).mp hencode
  have htype : Content.HasType c.types config.levels (.struct s) content :=
    Content.hasType_of_room 0 hc fun _ => Content.leavesRoom_of_given h.given v
  have hread : Wire.Reads (Decode.value c.types config config.levels (.struct s)) content.bytes
      content.toJson [] :=
    Decode.reads_value htype h.distinct (htype.everywhere_of_plainFields h.plain _)
  have hr := hread 0
  rw [List.append_nil] at hr
  exact ⟨content, hc, (decode_eq_ok hview).mpr ⟨_, hr⟩⟩

end Contract
end ChainKit.Abi
