import ChainKit.Proofs.Abi.RoundTrip

namespace ChainKit.Abi

namespace Content
set_option autoImplicit true

/-- Whether each extension is absent exactly where the data ends. -/
def ShowsExtensions (after : Bytes) (c : Content) : Prop :=
  c.Everywhere (fun after c => c.ShowsExtension after) after

instance (after : Bytes) (c : Content) : Decidable (c.ShowsExtensions after) :=
  inferInstanceAs (Decidable (c.Everywhere _ after))

/-- Whether an extension that is there takes at least a byte. -/
def HasExtensionBytes : Content → Prop
  | present c => c.bytes ≠ []
  | _ => True

instance : DecidablePred HasExtensionBytes
  | present c => inferInstanceAs (Decidable (c.bytes ≠ []))
  | leaf _ | struct _ | variant _ _ _ | array _ | null | given _ | absent => .isTrue trivial

theorem FieldsHave.eq_nil (h : FieldsHave p [] cs) : cs = [] := by
  generalize hfs : ([] : List Field) = fs at h
  cases h with
  | done => rfl
  | field => cases hfs
  | absent =>
    subst hfs
    rfl

theorem FieldsHave.cons_cases (h : FieldsHave p (f :: fs) cs) :
    (∃ c cs', cs = (f.name, c) :: cs' ∧ p f.type c ∧ FieldsHave p fs cs') ∨
      (f.type.isExtension ∧ cs = (f :: fs).map fun g => (g.name, Content.absent)) := by
  generalize hfs : f :: fs = gs at h
  cases h with
  | done => cases hfs
  | field hc h =>
    cases hfs
    exact .inl ⟨_, _, rfl, hc, h⟩
  | absent hg =>
    subst hfs
    exact .inr ⟨hg f List.mem_cons_self, rfl⟩

theorem fieldsBytes_append_inj {t : TypeTable}
    (hinj : ∀ type c c' after after', HasType t levels type c → HasType t levels type c' →
      c.ShowsExtensions after → c'.ShowsExtensions after' →
      c.bytes ++ after = c'.bytes ++ after' → c = c' ∧ after = after')
    (h : FieldsHave (HasType t levels) fs cs) (h' : FieldsHave (HasType t levels) fs cs')
    (hP : FieldsEverywhere (fun after c => c.ShowsExtension after) after cs)
    (hP' : FieldsEverywhere (fun after c => c.ShowsExtension after) after' cs')
    (he : fieldsBytes cs ++ after = fieldsBytes cs' ++ after') : cs = cs' ∧ after = after' := by
  induction fs generalizing cs cs' with
  | nil =>
    cases h.eq_nil
    cases h'.eq_nil
    exact ⟨rfl, he⟩
  | cons f fs ih =>
    -- An extension that is absent ends the data, one that is present does not.
    have hpresent {c : Content} {bs : Bytes} (hc : HasType t levels f.type c)
        (hPc : c.ShowsExtensions bs) (hf : f.type.isExtension) (hempty : [] = c.bytes ++ bs) :
        False := hc.shows_of_isExtension hPc hf hempty.symm
    rcases h.cons_cases with ⟨c, cs, rfl, hc, hcs⟩ | ⟨hf, rfl⟩
    · rcases h'.cons_cases with ⟨c', cs', rfl, hc', hcs'⟩ | ⟨hf, rfl⟩
      · rw [fieldsBytes, fieldsBytes, List.append_assoc, List.append_assoc] at he
        obtain ⟨rfl, hrest⟩ := hinj _ _ _ _ _ hc hc' hP.1 hP'.1 he
        obtain ⟨rfl, hafter⟩ := ih hcs hcs' hP.2 hP'.2 hrest
        exact ⟨rfl, hafter⟩
      · rw [after_of_absent hP' (List.cons_ne_nil f fs), fieldsBytes_absent, fieldsBytes,
          List.append_assoc] at he
        exact (hpresent hc hP.1 hf he.symm).elim
    · rcases h'.cons_cases with ⟨c', cs', rfl, hc', -⟩ | ⟨-, rfl⟩
      · rw [after_of_absent hP (List.cons_ne_nil f fs), fieldsBytes_absent, fieldsBytes,
          List.append_assoc] at he
        exact (hpresent hc' hP'.1 hf he).elim
      · rw [fieldsBytes_absent] at he
        exact ⟨rfl, he⟩

theorem itemsBytes_append_inj {p : Content → Prop}
    (hinj : ∀ c c' after after', p c → p c' → c.ShowsExtensions after → c'.ShowsExtensions after' →
      c.bytes ++ after = c'.bytes ++ after' → c = c' ∧ after = after')
    (h : ∀ c ∈ cs, p c) (h' : ∀ c ∈ cs', p c) (hlen : cs.length = cs'.length)
    (hP : ItemsEverywhere (fun after c => c.ShowsExtension after) after cs)
    (hP' : ItemsEverywhere (fun after c => c.ShowsExtension after) after' cs')
    (he : itemsBytes cs ++ after = itemsBytes cs' ++ after') : cs = cs' ∧ after = after' := by
  induction cs generalizing cs' with
  | nil =>
    cases cs' with
    | nil => exact ⟨rfl, he⟩
    | cons c' cs' => cases hlen
  | cons c cs ih =>
    cases cs' with
    | nil => cases hlen
    | cons c' cs' =>
      rw [itemsBytes, itemsBytes, List.append_assoc, List.append_assoc] at he
      obtain ⟨rfl, hrest⟩ := hinj _ _ _ _ (h c List.mem_cons_self) (h' c' List.mem_cons_self) hP.1
        hP'.1 he
      obtain ⟨rfl, hafter⟩ := ih (fun d hd => h d (List.mem_cons_of_mem _ hd))
        (fun d hd => h' d (List.mem_cons_of_mem _ hd)) (Nat.succ.inj hlen) hP.2 hP'.2 hrest
      exact ⟨rfl, hafter⟩

theorem varuint_append_inj (hn : n < 2 ^ 32) (hm : m < 2 ^ 32)
    (he : Wire.varuint n ++ rest = Wire.varuint m ++ rest') : n = m ∧ rest = rest' :=
  (Wire.Read.reads_varuint hn rest).unique (Wire.Read.reads_varuint hm rest') he

/-- Among contents of one type, the wire form tells a content from all others whatever follows. -/
theorem bytes_append_inj {t : TypeTable} (h : HasType t levels type c)
    (h' : HasType t levels type c') (hP : c.ShowsExtensions after)
    (hP' : c'.ShowsExtensions after') (he : c.bytes ++ after = c'.bytes ++ after') :
    c = c' ∧ after = after' := by
  induction levels generalizing type c c' after after' with
  | zero => exact h.elim
  | succ levels ih =>
    cases type with
    | builtin b =>
      cases c with
      | leaf l =>
        cases c' with
        | leaf l' =>
          obtain ⟨rfl, hafter⟩ :=
            Leaf.toBytes_append_inj (h.1.trans h'.1.symm) h.2 h'.2 he
          exact ⟨rfl, hafter⟩
        | _ => exact h'.elim
      | _ => exact h.elim
    | struct name =>
      cases c with
      | struct cs =>
        cases c' with
        | struct cs' =>
          obtain ⟨rfl, hafter⟩ := fieldsBytes_append_inj
            (fun _ _ _ _ _ hc hc' hPc hPc' hec => ih hc hc' hPc hPc' hec) h h' hP.2 hP'.2 he
          exact ⟨rfl, hafter⟩
        | _ => exact h'.elim
      | _ => exact h.elim
    | variant name =>
      cases c with
      | variant tag member c =>
        cases c' with
        | variant tag' member' c' =>
          obtain ⟨htag, hfind, m, hm, hc⟩ := h
          obtain ⟨htag', hfind', m', hm', hc'⟩ := h'
          rw [bytes, bytes, List.append_assoc, List.append_assoc] at he
          obtain ⟨rfl, hrest⟩ := varuint_append_inj htag htag' he
          cases hm.symm.trans hm'
          have hname : m.name = member := Result.eq_of_findIdx? hfind hm
          have hname' : m.name = member' := Result.eq_of_findIdx? hfind' hm
          obtain ⟨rfl, hafter⟩ := ih hc hc' hP.2 hP'.2 hrest
          exact ⟨by rw [← hname, ← hname'], hafter⟩
        | _ => exact h'.elim
      | _ => exact h.elim
    | array item =>
      cases c with
      | array cs =>
        cases c' with
        | array cs' =>
          rw [bytes, bytes, List.append_assoc, List.append_assoc] at he
          obtain ⟨hlen, hrest⟩ := varuint_append_inj h.1 h'.1 he
          obtain ⟨rfl, hafter⟩ := itemsBytes_append_inj
            (fun _ _ _ _ hc hc' hPc hPc' hec => ih hc hc' hPc hPc' hec) h.2 h'.2 hlen hP.2 hP'.2
            hrest
          exact ⟨rfl, hafter⟩
        | _ => exact h'.elim
      | _ => exact h.elim
    | optional inner =>
      cases c with
      | null =>
        cases c' with
        | null => exact ⟨rfl, List.cons.inj he |>.2⟩
        | given c' => exact absurd (List.cons.inj he).1 (by decide)
        | _ => exact h'.elim
      | given c =>
        cases c' with
        | null => exact absurd (List.cons.inj he).1 (by decide)
        | given c' =>
          obtain ⟨rfl, hafter⟩ := ih h h' hP.2 hP'.2 (List.cons.inj he).2
          exact ⟨rfl, hafter⟩
        | _ => exact h'.elim
      | _ => exact h.elim
    | extension inner =>
      cases c with
      | present c =>
        cases c' with
        | present c' =>
          obtain ⟨rfl, hafter⟩ := ih h h' hP.2 hP'.2 he
          exact ⟨rfl, hafter⟩
        | _ => exact h'.elim
      | _ => exact h.elim

end Content

namespace Contract
set_option autoImplicit true

/-- JSON values that are encoded as the same bytes say the same, if no byte follows an absent
extension in either of them and each extension that is there is shown by a byte. -/
theorem content_eq_of_encode_eq {d : Document} {t : TypeTable} (hview : t.view name = .ok type)
    (hv : (Contract.mk d t).encode config name v = .ok bs)
    (hw : (Contract.mk d t).encode config name w = .ok bs)
    (hvshows : ∀ content, (Contract.mk d t).content? config name v = some content →
      content.ShowsExtensions [])
    (hwshows : ∀ content, (Contract.mk d t).content? config name w = some content →
      content.ShowsExtensions []) :
    ∃ content, (Contract.mk d t).content? config name v = some content ∧
      (Contract.mk d t).content? config name w = some content := by
  obtain ⟨c, hc, rfl⟩ := (encode_eq_ok hview).mp hv
  obtain ⟨c', hc', he⟩ := (encode_eq_ok hview).mp hw
  have hcontent := (content?_of_view (c := Contract.mk d t) hview config v).trans hc
  have hcontent' := (content?_of_view (c := Contract.mk d t) hview config w).trans hc'
  obtain ⟨rfl, -⟩ := Content.bytes_append_inj (Content.hasType_of_ofJson? hc)
    (Content.hasType_of_ofJson? hc') (hvshows c hcontent) (hwshows c' hcontent') (by rw [he])
  exact ⟨c, hcontent, hcontent'⟩

theorem content_eq_of_encode_eq_note :
    (Contract.mk noteDocument noteTypes).encode {} "note" note = .ok noteBytes ∧
    (Contract.mk noteDocument noteTypes).encode {} "note" noteContent.toJson = .ok noteBytes ∧
    ∃ content, (Contract.mk noteDocument noteTypes).content? {} "note" note = some content ∧
      (Contract.mk noteDocument noteTypes).content? {} "note" noteContent.toJson =
        some content := by
  have hv : (Contract.mk noteDocument noteTypes).encode {} "note" note = .ok noteBytes := rfl
  have hw : (Contract.mk noteDocument noteTypes).encode {} "note" noteContent.toJson =
    .ok noteBytes := rfl
  have hvcontent : (Contract.mk noteDocument noteTypes).content? {} "note" note =
    some noteContent := rfl
  have hwcontent : (Contract.mk noteDocument noteTypes).content? {} "note" noteContent.toJson =
    some noteContent := rfl
  have hview : noteTypes.view "note" = .ok (.struct "note") := rfl
  have hshows : noteContent.ShowsExtensions [] := by decide
  refine ⟨hv, hw, content_eq_of_encode_eq hview hv hw ?_ ?_⟩
  · intro content hc
    cases hvcontent.symm.trans hc
    exact hshows
  · intro content hc
    cases hwcontent.symm.trans hc
    exact hshows

def gapDocument : Document :=
  { structs := [⟨"inner", "", [⟨"x", "uint8"⟩, ⟨"y", "uint8$"⟩]⟩,
      ⟨"outer", "", [⟨"a", "inner"⟩, ⟨"b", "uint8$"⟩]⟩] }

def gapTypes : TypeTable where
  structs := [⟨"inner", [⟨"x", .builtin (.uint .w8)⟩, ⟨"y", .extension (.builtin (.uint .w8))⟩]⟩,
    ⟨"outer", [⟨"a", .struct "inner"⟩, ⟨"b", .extension (.builtin (.uint .w8))⟩]⟩]
  variants := []
  meanings :=
    { names := [("uint8$", .extension (.builtin (.uint .w8))), ("uint8", .builtin (.uint .w8)),
        ("inner", .struct "inner"), ("outer", .struct "outer")]
      types := [.struct "inner", .struct "outer", .builtin (.uint .w8),
        .extension (.builtin (.uint .w8))] }

def gapOutside : Json := .obj [("a", .obj [("x", .ofNat 1)]), ("b", .ofNat 2)]

def gapInside : Json := .obj [("a", .obj [("x", .ofNat 1), ("y", .ofNat 2)])]

def gapOutsideContent : Content :=
  .struct [("a", .struct [("x", .leaf (.uint .w8 1)), ("y", .absent)]),
    ("b", .present (.leaf (.uint .w8 2)))]

def gapInsideContent : Content :=
  .struct [("a", .struct [("x", .leaf (.uint .w8 1)), ("y", .present (.leaf (.uint .w8 2)))]),
    ("b", .absent)]

/-- The rule for absent extensions looks at one struct at a time, and two values that differ are
encoded as the same bytes. -/
theorem encode_eq_of_content_ne_gap :
    TypeTable.build gapDocument = .ok gapTypes ∧
    gapTypes.view "outer" = .ok (.struct "outer") ∧
    gapTypes.Throughout gapTypes.HasDistinctFields (.struct "outer") ∧
    (Contract.mk gapDocument gapTypes).encode {} "outer" gapOutside = .ok [1, 2] ∧
    (Contract.mk gapDocument gapTypes).encode {} "outer" gapInside = .ok [1, 2] ∧
    (Contract.mk gapDocument gapTypes).content? {} "outer" gapOutside = some gapOutsideContent ∧
    (Contract.mk gapDocument gapTypes).content? {} "outer" gapInside = some gapInsideContent ∧
    gapOutsideContent.Everywhere (fun _ => Content.HasExtensionBytes) [] ∧
    gapInsideContent.Everywhere (fun _ => Content.HasExtensionBytes) [] ∧
    gapOutsideContent ≠ gapInsideContent := by
  refine ⟨by decide +kernel, rfl, ?_, rfl, rfl, rfl, rfl, by decide, by decide, nofun⟩
  exact .of_closed gapTypes.meanings.types (by decide) (by decide) (by decide)

end Contract
end ChainKit.Abi
