import ChainKit.Proofs.Abi.Decode

namespace ChainKit.Abi.Decode
set_option autoImplicit true
open Content Wire

/-- Whether a content is readable wherever it is read as its canonical form. -/
def Returns (r : Decode Json) (limit : Nat) (c : Content) : Prop :=
  ∀ p after s', r ⟨p, c.bytes ++ after⟩ = .ok c.toJson s' →
    s'.rest = after ∧ c.Everywhere (IsReadable limit) after

theorem behind_eq_ok {r : Read α} {f : Nat → α → Decode β} (hr : Reads r bs a rest)
    (h : (position >>= fun offset => wire r >>= f offset) ⟨p, bs ++ rest⟩ = .ok b s') :
    ∃ q, f p a ⟨q, rest⟩ = .ok b s' := by
  obtain ⟨offset, s₁, hposition, h⟩ := bind_eq_ok h
  cases hposition
  obtain ⟨a', s₂, ha, h⟩ := bind_eq_ok h
  obtain ⟨rfl, hrest⟩ := (reads_wire hr).eq_of_ok ha
  obtain ⟨q, bs'⟩ := s₂
  subst hrest
  exact ⟨q, h⟩

theorem items_eq_ok (h : items item i done count s = .ok vs s') :
    ∃ ws, ws.length = count ∧ vs = ws ++ done := by
  induction count generalizing i done s with
  | zero =>
    cases h
    exact ⟨[], rfl, rfl⟩
  | succ count ih =>
    obtain ⟨w, s₁, -, h⟩ := bind_eq_ok h
    obtain ⟨ws, rfl, rfl⟩ := ih h
    exact ⟨ws ++ [w], List.length_append, by rw [List.append_assoc, List.singleton_append]⟩

theorem returns_items (hv : ∀ c ∈ cs, Returns item limit c)
    (h : items item i done cs.length ⟨p, itemsBytes cs ++ after⟩ =
      .ok ((itemsJson cs).reverse ++ done) s') :
    s'.rest = after ∧ ItemsEverywhere (IsReadable limit) after cs := by
  induction cs generalizing i done p with
  | nil =>
    cases h
    exact ⟨rfl, trivial⟩
  | cons c cs ih =>
    obtain ⟨w, s₁, hw, h⟩ := bind_eq_ok h
    obtain ⟨ws, hlen, hws⟩ := items_eq_ok h
    have hlength : ((itemsJson cs).reverse).length = ws.length := by
      rw [List.length_reverse, length_itemsJson, hlen]
    rw [itemsJson, List.reverse_cons, List.append_assoc, List.singleton_append] at h hws
    obtain ⟨-, htail⟩ := List.append_inj hws hlength
    cases (List.cons.inj htail).1
    rw [itemsBytes, List.append_assoc] at hw
    obtain ⟨hrest, hc⟩ := hv c List.mem_cons_self p _ s₁ (part_eq_ok hw)
    obtain ⟨q, bs⟩ := s₁
    subst hrest
    obtain ⟨hafter, hcs⟩ := ih (fun d hd => hv d (List.mem_cons_of_mem _ hd)) h
    exact ⟨hafter, hc, hcs⟩

theorem returns_array (hv : ∀ c ∈ cs, Returns item limit c) (hlen : cs.length < 2 ^ 32) :
    Returns (Decode.array limit item) limit (.array cs) := by
  intro p after s' h
  rw [array_eq, bytes, List.append_assoc] at h
  obtain ⟨q, h⟩ := behind_eq_ok (Read.reads_varuint hlen _) h
  split at h
  · cases h
  · rename_i hfits
    obtain ⟨vs, s₁, hitems, h⟩ := bind_eq_ok h
    injection h with hjson hs
    injection hjson with hjson
    have hvs : vs = (itemsJson cs).reverse ++ [] := by
      rw [← hjson, List.reverse_reverse, List.append_nil]
    subst hvs hs
    obtain ⟨hafter, hcs⟩ := returns_items hv hitems
    refine ⟨hafter, ⟨trivial, ?_, trivial⟩, hcs⟩
    have hfits : ¬(limit < cs.length ∧ (itemsBytes cs ++ after).length < cs.length) := hfits
    rw [FitsArray]
    omega

theorem returns_variant {value : Ty → Decode Json} {u : VariantType} {c : Content}
    (hm : u.members[tag]? = some m) (htag : tag < 2 ^ 32) (hv : Returns (value m.type) limit c) :
    Returns (Decode.variant value u) limit (.variant tag m.name c) := by
  intro p after s' h
  rw [bytes, List.append_assoc] at h
  obtain ⟨q, h⟩ := behind_eq_ok (Read.reads_varuint htag _) h
  rw [hm] at h
  obtain ⟨w, s₁, hw, h⟩ := bind_eq_ok h
  injection h with hjson hs
  injection hjson with hjson
  cases (List.cons.inj (List.cons.inj hjson).2).1
  subst hs
  obtain ⟨hafter, hc⟩ := hv q after s₁ (part_eq_ok hw)
  exact ⟨hafter, ⟨trivial, trivial, trivial⟩, hc⟩

theorem returns_given {inner : Decode Json} (hv : Returns inner limit c) :
    Returns (Decode.optional inner) limit (.given c) := by
  intro p after s' h
  obtain ⟨q, h⟩ := behind_eq_ok (Read.reads_byte 1 (c.bytes ++ after)) h
  obtain ⟨hafter, hc⟩ := hv q after s' h
  exact ⟨hafter, ⟨trivial, trivial, trivial⟩, hc⟩

theorem returns_null {inner : Decode Json} : Returns (Decode.optional inner) limit .null := by
  intro p after s' h
  obtain ⟨q, h⟩ := behind_eq_ok (Read.reads_byte 0 after) h
  cases h
  exact ⟨rfl, trivial, trivial, trivial⟩

theorem fields_eq_ok {value : Ty → Decode Json} (hnodup : (fs.map Field.name).Nodup)
    (hdone : ∀ f ∈ fs, f.name ∉ done.map Prod.fst) (h : fields value done fs s = .ok ms s') :
    ∃ ms', ms = done ++ ms' ∧ ∀ m ∈ ms', m.1 ∈ fs.map Field.name := by
  induction fs generalizing done s with
  | nil =>
    cases h
    exact ⟨[], (List.append_nil _).symm, nofun⟩
  | cons f fs ih =>
    have hnames := List.nodup_cons.mp hnodup
    rw [fields_cons] at h
    cases hend : f.type.isExtension && s.isEmpty with
    | true =>
      simp only [hend, if_true] at h
      obtain ⟨ms', rfl, hms⟩ := ih hnames.2 (fun g hg => hdone g (List.mem_cons_of_mem _ hg)) h
      exact ⟨ms', rfl, fun m hm => List.mem_cons_of_mem _ (hms m hm)⟩
    | false =>
      simp only [hend] at h
      obtain ⟨w, s₁, -, h⟩ := bind_eq_ok h
      rw [Json.insert_of_not_mem (hdone f List.mem_cons_self)] at h
      obtain ⟨ms', rfl, hms⟩ := ih hnames.2 (not_mem_append_field hnodup hdone w) h
      refine ⟨(f.name, w) :: ms', by rw [List.append_assoc, List.singleton_append], ?_⟩
      intro m hm
      cases hm with
      | head => exact List.mem_cons_self
      | tail _ hm => exact List.mem_cons_of_mem _ (hms m hm)

theorem everywhere_absent (fs : List Field) :
    FieldsEverywhere (IsReadable limit) [] (fs.map fun f => (f.name, absent)) := by
  induction fs with
  | nil => trivial
  | cons f fs ih =>
    refine ⟨⟨?_, trivial, trivial⟩, ih⟩
    exact (List.append_nil _).trans (fieldsBytes_absent fs)

theorem returns_fields {t : TypeTable} {value : Ty → Decode Json}
    (hv : ∀ f ∈ fs, ∀ c, HasType t levels f.type c → Returns (value f.type) limit c)
    (h : FieldsHave (HasType t levels) fs cs) (hnodup : (fs.map Field.name).Nodup)
    (hdone : ∀ f ∈ fs, f.name ∉ done.map Prod.fst)
    (hr : fields value done fs ⟨p, fieldsBytes cs ++ after⟩ = .ok (done ++ fieldsJson cs) s') :
    s'.rest = after ∧ FieldsEverywhere (IsReadable limit) after cs := by
  induction h generalizing done p with
  | done =>
    injection hr with _ hs
    subst hs
    exact ⟨rfl, trivial⟩
  | @field f c fs cs hc h ih =>
    have hnames := List.nodup_cons.mp hnodup
    rw [fields_cons, fieldsJson_cons hc.ne_absent] at hr
    cases hend : f.type.isExtension &&
        (Reader.mk p (fieldsBytes ((f.name, c) :: cs) ++ after)).isEmpty with
    | true =>
      simp only [hend, if_true] at hr
      obtain ⟨ms', hms, hmem⟩ :=
        fields_eq_ok hnames.2 (fun g hg => hdone g (List.mem_cons_of_mem _ hg)) hr
      cases List.append_cancel_left hms
      exact absurd (hmem _ List.mem_cons_self) hnames.1
    | false =>
      simp only [hend] at hr
      obtain ⟨w, s₁, hw, hr⟩ := bind_eq_ok hr
      rw [Json.insert_of_not_mem (hdone f List.mem_cons_self)] at hr
      have hnew := not_mem_append_field hnodup hdone w
      obtain ⟨ms', hms, -⟩ := fields_eq_ok hnames.2 hnew hr
      rw [List.append_assoc, List.singleton_append] at hms
      cases (List.cons.inj (List.append_cancel_left hms)).1
      rw [fieldsBytes, List.append_assoc] at hw
      obtain ⟨hrest, hcs⟩ := hv f List.mem_cons_self c hc p _ s₁ (part_eq_ok hw)
      obtain ⟨q, bs⟩ := s₁
      subst hrest
      rw [← List.singleton_append (l := fieldsJson cs), ← List.append_assoc] at hr
      obtain ⟨hafter, hrest⟩ := ih (fun g hg => hv g (List.mem_cons_of_mem _ hg)) hnames.2 hnew hr
      exact ⟨hafter, hcs, hrest⟩
  | @absent fs hf =>
    rw [fieldsJson_absent, fieldsBytes_absent, List.append_nil, List.nil_append] at hr
    cases fs with
    | nil =>
      cases hr
      exact ⟨rfl, trivial⟩
    | cons f fs =>
      cases after with
      | nil =>
        rw [fields_atEnd hf] at hr
        cases hr
        exact ⟨rfl, everywhere_absent (f :: fs)⟩
      | cons b bs =>
        have hend : (f.type.isExtension && (Reader.mk p (b :: bs)).isEmpty) = false :=
          Bool.and_false _
        rw [fields_cons] at hr
        simp only [hend] at hr
        obtain ⟨w, s₁, -, hr⟩ := bind_eq_ok hr
        rw [Json.insert_of_not_mem (hdone f List.mem_cons_self)] at hr
        obtain ⟨ms', hms, -⟩ := fields_eq_ok (List.nodup_cons.mp hnodup).2
          (not_mem_append_field hnodup hdone w) hr
        have hlength := congrArg List.length hms
        simp at hlength

/-- A content without wire form is a struct, and so its canonical form is not `null`. -/
theorem toJson_ne_null_of_bytes_eq_nil {t : TypeTable} (h : HasType t levels type c)
    (hbytes : c.bytes = []) (he : type.isExtension = false) : c.toJson ≠ .null := by
  cases type with
  | array item =>
    cases c with
    | array cs => exact nofun
    | _ => cases levels <;> exact h.elim
  | optional inner =>
    cases c with
    | null => cases hbytes
    | given c => cases hbytes
    | _ => cases levels <;> exact h.elim
  | extension inner => cases he
  | _ => exact h.toJson_ne_null rfl

/-- The condition for a wire form to read as the canonical form is exact. -/
theorem returns_value {t : TypeTable} {config : Config} (h : HasType t levels type c)
    (hfields : t.Throughout t.HasDistinctFields type)
    (hnested : t.Throughout Ty.IsWellNested type) :
    Returns (value t config levels type) config.maxArrayLength c := by
  induction levels generalizing type c with
  | zero => exact h.elim
  | succ levels ih =>
    cases type with
    | builtin b =>
      cases c with
      | leaf l =>
        obtain ⟨rfl, hl⟩ := h
        intro p after s' hs
        have hread : ∃ l' s₁, Leaf.read config.strictBool l.type ⟨p, l.toBytes ++ after⟩ =
            .ok l' s₁ := by
          rw [value, wire, EStateM.adaptExcept, Builtin.decode] at hs
          split at hs
          · cases hs
          · obtain ⟨l', s₁, hl', -⟩ := bind_eq_ok ‹_›
            exact ⟨l', s₁, hl'⟩
        obtain ⟨l', s₁, hl'⟩ := hread
        have hrepr := Leaf.isRepresentable_of_read hl'
        have hreads : Reads (value t config (levels + 1) (.builtin l.type)) l.toBytes l.toJson
            after :=
          reads_wire (Leaf.reads_toBytes config.strictBool hl hrepr after).map
        exact ⟨(hreads.eq_of_ok hs).2, trivial, trivial, hrepr⟩
      | _ => exact h.elim
    | struct name =>
      cases c with
      | struct cs =>
        intro p after s' hs
        obtain ⟨ms, s₁, hms, hs⟩ := bind_eq_ok hs
        injection hs with hjson hs
        injection hjson with hjson
        subst hjson hs
        have hms : fields (value t config levels) [] (t.fieldsOf name)
            ⟨p, fieldsBytes cs ++ after⟩ = .ok ([] ++ fieldsJson cs) s₁ := hms
        have hnew : ∀ f ∈ t.fieldsOf name, f.name ∉ ([] : List (String × Json)).map Prod.fst :=
          fun _ _ => List.not_mem_nil
        obtain ⟨hafter, hcs⟩ := returns_fields
          (fun f hf c hc => ih hc (hfields.part (.field hf)) (hnested.part (.field hf))) h
          hfields.here hnew hms
        exact ⟨hafter, ⟨trivial, trivial, trivial⟩, hcs⟩
      | _ => exact h.elim
    | variant name =>
      cases c with
      | variant tag member c =>
        obtain ⟨htag, hfind, m, hm, hc⟩ := h
        have hmem : m ∈ t.membersOf name := List.mem_of_getElem? hm
        have hv := ih hc (hfields.part (.member hmem)) (hnested.part (.member hmem))
        have hname : m.name = member := Result.eq_of_findIdx? hfind hm
        rw [← hname]
        exact returns_variant (u := (t.variant? name).getD ⟨name, []⟩) hm htag hv
      | _ => exact h.elim
    | array item =>
      cases c with
      | array cs =>
        have hv : ∀ c ∈ cs, Returns (value t config levels item) config.maxArrayLength c :=
          fun c hc => ih (h.2 c hc) (hfields.part .item) (hnested.part .item)
        exact returns_array hv h.1
      | _ => exact h.elim
    | optional inner =>
      cases c with
      | null => exact returns_null
      | given c => exact returns_given (ih h (hfields.part .given) (hnested.part .given))
      | _ => exact h.elim
    | extension inner =>
      cases c with
      | present c =>
        have hc : HasType t levels inner c := h
        have hv := ih hc (hfields.part .present) (hnested.part .present)
        intro p after s' hs
        rw [value, extension, atEnd_bind] at hs
        cases hempty : (Reader.mk p ((present c).bytes ++ after)).isEmpty with
        | true =>
          -- At the end of the data only `null` is read, which is no canonical form here.
          simp only [hempty, if_true] at hs
          injection hs with hjson _
          have hnil := List.append_eq_nil_iff.mp (List.isEmpty_iff.mp hempty)
          have hnull : c.toJson = .null := hjson.symm
          exact absurd hnull (toJson_ne_null_of_bytes_eq_nil hc hnil.1 hnested.here.1)
        | false =>
          simp only [hempty] at hs
          obtain ⟨hafter, hP⟩ := hv p after s' hs
          exact ⟨hafter, ⟨List.isEmpty_eq_false_iff.mp hempty, trivial, trivial⟩, hP⟩
      | _ => exact h.elim

end ChainKit.Abi.Decode
