import ChainKit.Proofs.Abi.Reaches

namespace ChainKit.Abi.Content
set_option autoImplicit true

theorem HasType.ne_absent {t : TypeTable} (h : HasType t levels type c) : c ≠ absent := by
  intro hc
  subst hc
  cases levels with
  | zero => exact h
  | succ levels => cases type <;> exact h

theorem fieldsJson_cons (h : c ≠ absent) (name : String) (cs : List (String × Content)) :
    fieldsJson ((name, c) :: cs) = (name, c.toJson) :: fieldsJson cs := by
  cases c with
  | absent => exact absurd rfl h
  | _ => rfl

theorem fieldsJson_absent (fs : List Field) :
    fieldsJson (fs.map fun f => (f.name, absent)) = [] := by
  induction fs with
  | nil => rfl
  | cons f fs ih => exact ih

theorem fieldsBytes_absent (fs : List Field) :
    fieldsBytes (fs.map fun f => (f.name, absent)) = [] := by
  induction fs with
  | nil => rfl
  | cons f fs ih => exact ih

/-- An extension that is there is shown by the data from its beginning on. -/
theorem HasType.shows_of_isExtension {t : TypeTable} (h : HasType t levels type c)
    (hP : c.Everywhere (fun after c => c.ShowsExtension after) after) (he : type.isExtension) :
    c.bytes ++ after ≠ [] := by
  cases type with
  | extension inner =>
    cases levels with
    | zero => exact h.elim
    | succ levels =>
      cases c with
      | present c => exact hP.1
      | _ => exact h.elim
  | _ => cases he

theorem after_of_absent (h : FieldsEverywhere (fun after c => c.ShowsExtension after) after
    (fs.map fun f : Field => (f.name, absent))) (hne : fs ≠ []) : after = [] := by
  cases fs with
  | nil => exact absurd rfl hne
  | cons f fs =>
    have hf := h.1
    rw [fieldsBytes_absent] at hf
    exact hf

theorem fieldsOfJson?_there {f : Field} (hm : Json.member? members f.name = some v) :
    fieldsOfJson? value? members false (f :: fs) =
      (do return (f.name, ← value? f.type v) :: (← fieldsOfJson? value? members false fs)) := by
  obtain ⟨name, type⟩ := f
  simp only [fieldsOfJson?, hm]

theorem fieldsOfJson?_extension {f : Field} (hm : Json.member? members f.name = none)
    (hf : f.type.isExtension) : fieldsOfJson? value? members behind (f :: fs) =
      (fieldsOfJson? value? members true fs).map fun cs => (f.name, absent) :: cs := by
  obtain ⟨name, type⟩ := f
  cases type with
  | extension inner =>
    simp only [fieldsOfJson?, hm]
    cases fieldsOfJson? value? members true fs <;> rfl
  | _ => cases hf

theorem fieldsOfJson?_cons (h : fieldsOfJson? value? members behind (f :: fs) = some cs) :
    (behind = false ∧ ∃ v c cs', Json.member? members f.name = some v ∧ value? f.type v = some c ∧
      fieldsOfJson? value? members false fs = some cs' ∧ cs = (f.name, c) :: cs') ∨
    (behind = false ∧ Json.member? members f.name = none ∧ ∃ inner cs', f.type = .optional inner ∧
      fieldsOfJson? value? members false fs = some cs' ∧ cs = (f.name, null) :: cs') ∨
    (Json.member? members f.name = none ∧ f.type.isExtension ∧ ∃ cs',
      fieldsOfJson? value? members true fs = some cs' ∧ cs = (f.name, absent) :: cs') := by
  obtain ⟨name, type⟩ := f
  cases hm : Json.member? members name with
  | some v =>
    cases behind with
    | true => simp [fieldsOfJson?, hm] at h
    | false =>
      left
      simp only [fieldsOfJson?, hm] at h
      obtain ⟨c, hc, h⟩ := Option.bind_eq_some_iff.mp h
      obtain ⟨cs', hcs, h⟩ := Option.bind_eq_some_iff.mp h
      cases h
      exact ⟨rfl, v, c, cs', rfl, hc, hcs, rfl⟩
  | none =>
    right
    cases type with
    | extension inner =>
      right
      simp only [fieldsOfJson?, hm] at h
      obtain ⟨cs', hcs, h⟩ := Option.bind_eq_some_iff.mp h
      cases h
      exact ⟨rfl, rfl, cs', hcs, rfl⟩
    | optional inner =>
      cases behind with
      | true => simp [fieldsOfJson?, hm] at h
      | false =>
        left
        simp only [fieldsOfJson?, hm] at h
        obtain ⟨cs', hcs, h⟩ := Option.bind_eq_some_iff.mp h
        cases h
        exact ⟨rfl, rfl, inner, cs', rfl, hcs, rfl⟩
    | _ => cases behind <;> simp [fieldsOfJson?, hm] at h

theorem absent_of_fieldsOfJson? (h : fieldsOfJson? value? members true fs = some cs) :
    (∀ f ∈ fs, f.type.isExtension) ∧ cs = fs.map fun f => (f.name, absent) := by
  induction fs generalizing cs with
  | nil =>
    cases h
    exact ⟨nofun, rfl⟩
  | cons f fs ih =>
    rcases fieldsOfJson?_cons h with ⟨hb, -⟩ | ⟨hb, -⟩ | ⟨-, hf, cs', hcs, rfl⟩
    · cases hb
    · cases hb
    · obtain ⟨hfs, rfl⟩ := ih hcs
      exact ⟨List.forall_mem_cons.mpr ⟨hf, hfs⟩, rfl⟩

theorem fieldsHave_of_fieldsOfJson? {p : Ty → Content → Prop}
    (hp : ∀ f ∈ fs, ∀ v c, Json.member? members f.name = some v → value? f.type v = some c →
      p f.type c)
    (hnull : ∀ f ∈ fs, ∀ inner, Json.member? members f.name = none → f.type = .optional inner →
      p f.type null)
    (h : fieldsOfJson? value? members false fs = some cs) : FieldsHave p fs cs := by
  induction fs generalizing cs with
  | nil =>
    cases h
    exact .done
  | cons f fs ih =>
    have hrest {cs} : fieldsOfJson? value? members false fs = some cs → FieldsHave p fs cs :=
      ih (fun g hg => hp g (List.mem_cons_of_mem _ hg))
        (fun g hg => hnull g (List.mem_cons_of_mem _ hg))
    rcases fieldsOfJson?_cons h with ⟨-, v, c, cs', hm, hc, hcs, rfl⟩ |
      ⟨-, hm, inner, cs', ht, hcs, rfl⟩ | ⟨-, hf, cs', hcs, rfl⟩
    · exact .field (hp f List.mem_cons_self v c hm hc) (hrest hcs)
    · exact .field (hnull f List.mem_cons_self inner hm ht) (hrest hcs)
    · obtain ⟨hfs, rfl⟩ := absent_of_fieldsOfJson? hcs
      exact FieldsHave.absent (List.forall_mem_cons.mpr ⟨hf, hfs⟩)

/-- Whether there is a level left for each optional value that is left out. -/
def LeavesRoom (t : TypeTable) : (levels : Nat) → Ty → Json → Prop
  | levels + 1, .struct name, .obj members => ∀ f ∈ t.fieldsOf name,
    (Json.member? members f.name = none → ∀ inner, f.type = .optional inner → 0 < levels) ∧
      ∀ v, Json.member? members f.name = some v → LeavesRoom t levels f.type v
  | levels + 1, .variant name, .arr [.str member, v] =>
    ∀ m ∈ t.membersOf name, m.name = member → LeavesRoom t levels m.type v
  | levels + 1, .array item, .arr vs => ∀ v ∈ vs, LeavesRoom t levels item v
  | _ + 1, .optional _, .null => True
  | levels + 1, .optional inner, v => LeavesRoom t levels inner v
  | levels + 1, .extension inner, v => LeavesRoom t levels inner v
  | _, _, _ => True

/-- A content is one of its type within the levels of the value that it is the content of, and
within one level more even if that value leaves no room for what it leaves out. -/
theorem hasType_of_room {t : TypeTable} (extra : Nat) (h : ofJson? t levels type v = some c)
    (hroom : extra = 0 → LeavesRoom t levels type v) : HasType t (levels + extra) type c := by
  induction levels generalizing type v c with
  | zero => cases h
  | succ levels ih =>
    rw [Nat.succ_add]
    cases type with
    | builtin b =>
      simp only [ofJson?] at h
      obtain ⟨l, hl, rfl⟩ := Option.map_eq_some_iff.mp h
      exact Leaf.type_of_parse (Result.toOption_eq_some.mp hl)
    | struct name =>
      simp only [ofJson?] at h
      cases v with
      | obj members =>
        obtain ⟨cs, hcs, rfl⟩ := Option.map_eq_some_iff.mp h
        apply fieldsHave_of_fieldsOfJson? _ _ hcs
        · intro f hf v c hm hc
          exact ih hc fun he => (hroom he f hf).2 v hm
        · intro f hf inner hm ht
          have hpos : 0 < levels + extra := by
            rcases Nat.eq_zero_or_pos extra with he | he
            · exact Nat.add_pos_left ((hroom he f hf).1 hm inner ht) _
            · exact Nat.add_pos_right _ he
          obtain ⟨n, hn⟩ := Nat.exists_eq_add_one.mpr hpos
          rw [ht, hn]
          trivial
      | _ => cases h
    | variant name =>
      simp only [ofJson?] at h
      unfold variantOfJson? at h
      split at h
      · rename_i member inner
        obtain ⟨tag, htag, h⟩ := Option.bind_eq_some_iff.mp h
        obtain ⟨m, hm, h⟩ := Option.bind_eq_some_iff.mp h
        split at h
        · cases h
        · obtain ⟨c, hc, h⟩ := Option.bind_eq_some_iff.mp h
          cases h
          have hname : m.name = member := Result.eq_of_findIdx? htag hm
          have hinner := ih hc fun he => hroom he m (List.mem_of_getElem? hm) hname
          exact ⟨by omega, htag, m, hm, hinner⟩
      · cases h
    | array item =>
      simp only [ofJson?] at h
      cases v with
      | arr vs =>
        simp only [arrayOfJson?] at h
        split at h
        · cases h
        · obtain ⟨cs, hcs, rfl⟩ := Option.map_eq_some_iff.mp h
          have hlen := Result.length_of_mapM hcs
          refine ⟨by omega, ?_⟩
          intro c hc
          obtain ⟨v, hmem, hv⟩ := Result.mem_of_mapM_some hcs hc
          exact ih hv fun he => hroom he v hmem
      | _ => cases h
    | optional inner =>
      simp only [ofJson?] at h
      unfold optionalOfJson? at h
      split at h
      · cases h
        trivial
      · rename_i hnull
        obtain ⟨c, hc, rfl⟩ := Option.map_eq_some_iff.mp h
        apply ih hc
        intro he
        have hinner := hroom he
        rw [LeavesRoom] at hinner
        · exact hinner
        · exact hnull
    | extension inner =>
      simp only [ofJson?] at h
      obtain ⟨c, hc, rfl⟩ := Option.map_eq_some_iff.mp h
      exact ih hc hroom

/-- A content takes one more level than the value that it is the content of: an optional value
that is not given is one more value. -/
theorem hasType_of_ofJson? {t : TypeTable} (h : ofJson? t levels type v = some c) :
    HasType t (levels + 1) type c :=
  hasType_of_room 1 h nofun

theorem fieldsOfJson?_absent (hm : ∀ f ∈ fs, Json.member? members f.name = none)
    (hf : ∀ f ∈ fs, f.type.isExtension) (behind : Bool) :
    fieldsOfJson? value? members behind fs = some (fs.map fun f => (f.name, absent)) := by
  induction fs generalizing behind with
  | nil => cases behind <;> rfl
  | cons f fs ih =>
    have hmf := hm f List.mem_cons_self
    have hff := hf f List.mem_cons_self
    have hrest := ih (fun g hg => hm g (List.mem_cons_of_mem _ hg))
      (fun g hg => hf g (List.mem_cons_of_mem _ hg)) true
    rw [fieldsOfJson?_extension hmf hff, hrest]
    rfl

theorem member?_fieldsJson_tail (hne : c ≠ absent) (hnodup : ((f :: fs).map Field.name).Nodup)
    (hm : ∀ g ∈ f :: fs, Json.member? members g.name =
      Json.member? (fieldsJson ((f.name, c) :: cs)) g.name) :
    ∀ g ∈ fs, Json.member? members g.name = Json.member? (fieldsJson cs) g.name := by
  intro g hg
  have hgf : (g.name == f.name) = false := by
    apply beq_false_of_ne
    intro he
    exact (List.nodup_cons.mp hnodup).1 (he ▸ List.mem_map_of_mem hg)
  rw [hm g (List.mem_cons_of_mem _ hg), fieldsJson_cons hne, Json.member?, Json.member?,
    List.lookup_cons, hgf]

theorem fieldsOfJson?_fieldsJson {P : Bytes → Content → Prop}
    (hv : ∀ f ∈ fs, ∀ c after, p f.type c → c.Everywhere P after →
      value? f.type c.toJson = some c ∧ c ≠ absent)
    (h : FieldsHave p fs cs) (hP : FieldsEverywhere P after cs)
    (hnodup : (fs.map Field.name).Nodup)
    (hm : ∀ f ∈ fs, Json.member? members f.name = Json.member? (fieldsJson cs) f.name) :
    fieldsOfJson? value? members false fs = some cs := by
  induction h with
  | done => rfl
  | @field f c fs cs hc h ih =>
    obtain ⟨hval, hne⟩ := hv f List.mem_cons_self c _ hc hP.1
    have hmf : Json.member? members f.name = some c.toJson := by
      rw [hm f List.mem_cons_self, fieldsJson_cons hne, Json.member?, List.lookup_cons_self]
    have hrest : fieldsOfJson? value? members false fs = some cs :=
      ih (fun g hg => hv g (List.mem_cons_of_mem _ hg)) hP.2 (List.nodup_cons.mp hnodup).2
        (member?_fieldsJson_tail hne hnodup hm)
    rw [fieldsOfJson?_there hmf, hval, hrest]
    rfl
  | absent hf =>
    refine fieldsOfJson?_absent ?_ hf false
    intro f hff
    rw [hm f hff, fieldsJson_absent]
    rfl

theorem mapM_itemsJson {P : Bytes → Content → Prop} {p : Content → Prop}
    {item? : Json → Option Content}
    (hv : ∀ c after, p c → c.Everywhere P after → item? c.toJson = some c)
    (h : ∀ c ∈ cs, p c) (hP : ItemsEverywhere P after cs) :
    (itemsJson cs).mapM item? = some cs := by
  induction cs with
  | nil => rfl
  | cons c cs ih =>
    rw [itemsJson, List.mapM_cons, hv c _ (h c List.mem_cons_self) hP.1,
      ih (fun d hd => h d (List.mem_cons_of_mem _ hd)) hP.2]
    rfl

theorem length_itemsJson (cs : List Content) : (itemsJson cs).length = cs.length := by
  induction cs with
  | nil => rfl
  | cons c cs ih => rw [itemsJson, List.length_cons, List.length_cons, ih]

theorem HasType.toJson_ne_null {t : TypeTable} (h : HasType t levels type c)
    (hw : type.isWrapped = false) : c.toJson ≠ .null := by
  cases levels with
  | zero => exact h.elim
  | succ levels =>
    cases c with
    | leaf l => exact l.toJson_ne_null
    | null => cases type <;> first | exact h.elim | cases hw
    | given c => cases type <;> first | exact h.elim | cases hw
    | present c => cases type <;> first | exact h.elim | cases hw
    | absent => exact absurd rfl h.ne_absent
    | _ => exact nofun

theorem optionalOfJson?_given {inner? : Json → Option Content} (hne : c.toJson ≠ .null)
    (h : inner? c.toJson = some c) : optionalOfJson? inner? c.toJson = some (given c) := by
  unfold optionalOfJson?
  split
  · exact absurd ‹_› hne
  · rw [h]
    rfl

/-- What a content needs for its canonical form to have the same content. -/
structure IsPrintable (t : TypeTable) (type : Ty) : Prop where
  fields : t.Throughout t.HasDistinctFields type
  floats : t.Throughout (Ty.Avoids Builtin.IsFloat) type
  nested : t.Throughout Ty.IsWellNested type

theorem IsPrintable.part {t : TypeTable} {inner : Ty} (h : IsPrintable t type)
    (hp : t.Part type inner) : IsPrintable t inner :=
  ⟨h.fields.part hp, h.floats.part hp, h.nested.part hp⟩

/-- The canonical form of a content has that content. -/
theorem ofJson?_toJson {t : TypeTable} (h : HasType t levels type c) (ht : IsPrintable t type)
    (htime : c.Everywhere (fun _ => ShowsTime) after) :
    ofJson? t levels type c.toJson = some c := by
  induction levels generalizing type c after with
  | zero => exact h.elim
  | succ levels ih =>
    cases type with
    | builtin b =>
      cases c with
      | leaf l =>
        obtain ⟨rfl, hl⟩ := h
        have hp := Leaf.parse_toJson hl htime ht.floats.here
        simp only [ofJson?, toJson, hp]
        rfl
      | _ => exact h.elim
    | struct name =>
      cases c with
      | struct cs =>
        simp only [ofJson?, toJson, structOfJson?]
        rw [fieldsOfJson?_fieldsJson _ h htime.2 ht.fields.here fun _ _ => rfl]
        · rfl
        · intro f hf c after hc hP
          exact ⟨ih hc (ht.part (.field hf)) hP, hc.ne_absent⟩
      | _ => exact h.elim
    | variant name =>
      cases c with
      | variant tag member c =>
        obtain ⟨htag, hfind, m, hm, hc⟩ := h
        have hmem : m ∈ t.membersOf name := List.mem_of_getElem? hm
        have hv := ih hc (ht.part (.member hmem)) htime.2
        simp only [ofJson?, toJson, variantOfJson?, hfind, hm, Option.bind_eq_bind,
          Option.bind_some, if_neg (Nat.not_le_of_lt htag), hv]
        rfl
      | _ => exact h.elim
    | array item =>
      cases c with
      | array cs =>
        have hcs := mapM_itemsJson (fun c after hc hP => ih hc (ht.part .item) hP) h.2 htime.2
        simp only [ofJson?, toJson, arrayOfJson?, length_itemsJson, if_neg (Nat.not_le_of_lt h.1),
          hcs]
        rfl
      | _ => exact h.elim
    | optional inner =>
      cases c with
      | null => rfl
      | given c =>
        have hne : c.toJson ≠ .null := HasType.toJson_ne_null h ht.nested.here.1
        have hv : ofJson? t levels inner c.toJson = some c := ih h (ht.part .given) htime.2
        exact optionalOfJson?_given hne hv
      | _ => exact h.elim
    | extension inner =>
      cases c with
      | present c =>
        have hv : ofJson? t levels inner c.toJson = some c := ih h (ht.part .present) htime.2
        simp only [ofJson?, toJson, hv]
        rfl
      | _ => exact h.elim

end ChainKit.Abi.Content
