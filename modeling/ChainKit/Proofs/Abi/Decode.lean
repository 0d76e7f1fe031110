import ChainKit.Abi.Codec.Decode
import ChainKit.Proofs.Abi.Canonical
import ChainKit.Proofs.Abi.Leaf.Wire
import ChainKit.Proofs.Json.Members

namespace ChainKit.Abi.Decode
set_option autoImplicit true
open Content Wire

theorem reads_wire {r : Read α} (h : Reads r bs a rest) : Reads (wire r) bs a rest := h.adapt _

theorem reads_part (step : Step) (h : Reads r bs a rest) : Reads (part step r) bs a rest :=
  h.adapt _

theorem part_eq_ok (h : part step r s = .ok a s') : r s = .ok a s' := by
  simp only [part, EStateM.adaptExcept] at h
  split at h
  · cases h
  · cases h
    assumption

theorem get_bind (f : Reader → Decode α) (r : Reader) : (get >>= f) r = f r r := rfl

theorem atEnd_bind (f : Bool → Decode α) (r : Reader) : (atEnd >>= f) r = f r.isEmpty r := rfl

/-- The one failure of an array behind its length is a length beyond the limit and the data. -/
theorem array_eq (limit : Nat) (item : Decode Json) :
    array limit item = position >>= fun offset => wire Read.varuint >>= fun count => fun r =>
      if limit < count ∧ r.remaining < count then
        fail offset (.arrayLength count r.remaining limit) r
      else (items item 0 [] count >>= fun vs => pure (.arr vs.reverse)) r := by
  rw [array]
  congr 1
  funext offset
  congr 1
  funext count r
  by_cases hc : limit < count
  · simp only [hc, if_true, true_and, get_bind]
    by_cases hr : r.remaining < count
    · simp only [hr, if_true]
      rfl
    · simp only [hr, if_false]
  · simp only [hc, if_false, false_and]

theorem fields_cons (value : Ty → Decode Json) (done : List (String × Json)) (f : Field)
    (fs : List Field) : fields value done (f :: fs) = fun r =>
      if f.type.isExtension && r.isEmpty then fields value done fs r
      else (part (.field f.name) (value f.type) >>= fun v =>
        fields value (Json.insert done f.name v) fs) r := by
  funext r
  rw [fields, atEnd_bind]
  cases he : f.type.isExtension && r.isEmpty with
  | false => rfl
  | true => rfl

section

variable {P : Bytes → Content → Prop} {p : Content → Prop} {item : Decode Json}

theorem reads_items (hv : ∀ c after, p c → c.Everywhere P after → Reads item c.bytes c.toJson after)
    (h : ∀ c ∈ cs, p c) (hP : ItemsEverywhere P after cs) (i : Nat) (done : List Json) :
    Reads (items item i done cs.length) (itemsBytes cs) ((itemsJson cs).reverse ++ done) after := by
  induction cs generalizing i done with
  | nil => exact Reads.pure _ _
  | cons c cs ih =>
    have hc := hv c _ (h c List.mem_cons_self) hP.1
    have hrest := ih (fun d hd => h d (List.mem_cons_of_mem _ hd)) hP.2 (i + 1) (c.toJson :: done)
    rw [itemsJson, List.reverse_cons, List.append_assoc]
    exact (reads_part _ hc).bind hrest

theorem reads_array (hv : ∀ c after, p c → c.Everywhere P after → Reads item c.bytes c.toJson after)
    (h : ∀ c ∈ cs, p c) (hP : ItemsEverywhere P after cs) (hlen : cs.length < 2 ^ 32)
    (hfits : cs.length ≤ limit ∨ cs.length ≤ (itemsBytes cs ++ after).length) :
    Reads (Decode.array limit item) (Content.array cs).bytes (Content.array cs).toJson after := by
  rw [array_eq]
  refine Reads.position fun offset => (reads_wire (Read.reads_varuint hlen _)).bind ?_
  have hn : ¬(limit < cs.length ∧ (itemsBytes cs ++ after).length < cs.length) := by omega
  intro q
  have hitems := (reads_items hv h hP 0 []).map (f := fun vs => Json.arr vs.reverse)
  simp only [List.append_nil, List.reverse_reverse] at hitems
  exact (if_neg hn).trans (hitems q)

end

theorem reads_variant {value : Ty → Decode Json} {u : VariantType} {c : Content}
    (hm : u.members[tag]? = some m) (htag : tag < 2 ^ 32)
    (hv : Reads (value m.type) c.bytes c.toJson after) :
    Reads (Decode.variant value u) (Wire.varuint tag ++ c.bytes)
      (.arr [.str m.name, c.toJson]) after := by
  refine Reads.position fun offset => (reads_wire (Read.reads_varuint htag _)).bind ?_
  rw [hm]
  exact (reads_part _ hv).map

theorem fields_atEnd (hf : ∀ f ∈ fs, f.type.isExtension) (value : Ty → Decode Json)
    (done : List (String × Json)) (p : Nat) :
    fields value done fs ⟨p, []⟩ = .ok done ⟨p, []⟩ := by
  induction fs with
  | nil => rfl
  | cons f fs ih =>
    have hff := hf f List.mem_cons_self
    rw [fields_cons]
    simp only [hff, Reader.isEmpty, List.isEmpty_nil, Bool.and_self, if_true]
    exact ih fun g hg => hf g (List.mem_cons_of_mem _ hg)

/-- The names of the fields to come are new, also behind one more field. -/
theorem not_mem_append_field (hnodup : ((f :: fs).map Field.name).Nodup)
    (hdone : ∀ g ∈ f :: fs, g.name ∉ done.map Prod.fst) (v : Json) :
    ∀ g ∈ fs, g.name ∉ (done ++ [(f.name, v)]).map Prod.fst := by
  intro g hg hmem
  rw [List.map_append, List.mem_append] at hmem
  rcases hmem with hmem | hmem
  · exact hdone g (List.mem_cons_of_mem _ hg) hmem
  · have hgf : g.name = f.name := List.mem_singleton.mp hmem
    exact (List.nodup_cons.mp hnodup).1 (hgf ▸ List.mem_map_of_mem hg)

theorem reads_fields {t : TypeTable} {value : Ty → Decode Json}
    (hv : ∀ f ∈ fs, ∀ c after, HasType t levels f.type c → c.Everywhere (IsReadable limit) after →
      Reads (value f.type) c.bytes c.toJson after)
    (h : FieldsHave (HasType t levels) fs cs) (hP : FieldsEverywhere (IsReadable limit) after cs)
    (hnodup : (fs.map Field.name).Nodup) (hdone : ∀ f ∈ fs, f.name ∉ done.map Prod.fst) :
    Reads (fields value done fs) (fieldsBytes cs) (done ++ fieldsJson cs) after := by
  induction h generalizing done with
  | done =>
    rw [fieldsJson, List.append_nil]
    exact Reads.pure _ _
  | @field f c fs cs hc h ih =>
    have hnames := List.nodup_cons.mp hnodup
    have hval := hv f List.mem_cons_self c _ hc hP.1
    have hnew := not_mem_append_field hnodup hdone c.toJson
    have hrest := ih (fun g hg => hv g (List.mem_cons_of_mem _ hg)) hP.2 hnames.2 hnew
    rw [List.append_assoc, List.singleton_append, ← fieldsJson_cons hc.ne_absent,
      ← Json.insert_of_not_mem (hdone f List.mem_cons_self)] at hrest
    have hread := Reads.bind (f := fun v => fields value (Json.insert done f.name v) fs)
      (reads_part (.field f.name) hval) hrest
    have hshown : (f.type.isExtension && (c.bytes ++ fieldsBytes cs ++ after).isEmpty) = false := by
      cases he : f.type.isExtension with
      | false => rfl
      | true =>
        have hne := hc.shows_of_isExtension (hP.1.mono fun _ _ h => h.extension) he
        rw [← List.append_assoc] at hne
        rw [Bool.true_and, List.isEmpty_eq_false_iff]
        exact hne
    rw [fields_cons]
    intro q
    simp only [fieldsBytes, Reader.isEmpty, hshown]
    exact hread q
  | @absent fs hf =>
    rw [fieldsJson_absent, fieldsBytes_absent, List.append_nil]
    cases fs with
    | nil => exact Reads.pure _ _
    | cons f fs =>
      have hafter := after_of_absent (hP.mono fun _ _ h => h.extension) (List.cons_ne_nil f fs)
      subst hafter
      exact fields_atEnd hf value done

/-- The wire form of a readable content reads as its canonical form. -/
theorem reads_value {t : TypeTable} {config : Config} (h : HasType t levels type c)
    (hfields : t.Throughout t.HasDistinctFields type)
    (hP : c.Everywhere (IsReadable config.maxArrayLength) after) :
    Reads (value t config levels type) c.bytes c.toJson after := by
  induction levels generalizing type c after with
  | zero => exact h.elim
  | succ levels ih =>
    cases type with
    | builtin b =>
      cases c with
      | leaf l =>
        obtain ⟨rfl, hl⟩ := h
        exact reads_wire (Leaf.reads_toBytes config.strictBool hl hP.time after).map
      | _ => exact h.elim
    | struct name =>
      cases c with
      | struct cs =>
        refine Reads.map (reads_fields ?_ h hP.2 hfields.here fun _ _ => nofun)
        intro f hf c after hc hPc
        exact ih hc (hfields.part (.field hf)) hPc
      | _ => exact h.elim
    | variant name =>
      cases c with
      | variant tag member c =>
        obtain ⟨htag, hfind, m, hm, hc⟩ := h
        have hmem : m ∈ t.membersOf name := List.mem_of_getElem? hm
        have hv := ih hc (hfields.part (.member hmem)) hP.2
        have hname : m.name = member := Result.eq_of_findIdx? hfind hm
        rw [← hname]
        exact reads_variant (u := (t.variant? name).getD ⟨name, []⟩) hm htag hv
      | _ => exact h.elim
    | array item =>
      cases c with
      | array cs =>
        exact reads_array (fun c after hc hPc => ih hc (hfields.part .item) hPc) h.2 hP.2 h.1
          hP.1.array
      | _ => exact h.elim
    | optional inner =>
      cases c with
      | null =>
        exact Reads.position fun offset =>
          Reads.check (reads_wire (Read.reads_byte 0 _)) (Reads.pure _ _)
      | given c =>
        have hv : Reads (value t config levels inner) c.bytes c.toJson after :=
          ih h (hfields.part .given) hP.2
        exact Reads.position fun offset => (reads_wire (Read.reads_byte 1 _)).bind hv
      | _ => exact h.elim
    | extension inner =>
      cases c with
      | present c =>
        have hv : Reads (value t config levels inner) c.bytes c.toJson after :=
          ih h (hfields.part .present) hP.2
        have hne : (c.bytes ++ after).isEmpty = false :=
          List.isEmpty_eq_false_iff.mpr hP.1.extension
        intro q
        rw [value, extension, atEnd_bind]
        simp only [bytes, Reader.isEmpty, hne]
        exact hv q
      | _ => exact h.elim

end ChainKit.Abi.Decode
