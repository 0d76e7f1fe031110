import ChainKit.Abi.Contract
import ChainKit.Proofs.Abi.Encode
import ChainKit.Proofs.Abi.Readable

namespace ChainKit.Abi

/-- The limits with one more nested value. -/
def Config.deeper (c : Config) : Config := { c with maxDepth := c.maxDepth + 1 }

namespace Contract
set_option autoImplicit true

/-- What a JSON value says as a value of a named type. -/
def content? (c : Contract) (config : Config) (type : String) (v : Json) : Option Content :=
  (c.view type).toOption.bind fun t => Content.ofJson? c.types config.levels t v

theorem view_eq_ok {c : Contract} : c.view name = .ok type ↔ c.types.view name = .ok type :=
  Result.mapError_eq_ok

theorem content?_of_view {c : Contract} (h : c.types.view name = .ok type) (config : Config)
    (v : Json) : c.content? config name v = Content.ofJson? c.types config.levels type v := by
  rw [content?, view_eq_ok.mpr h]
  rfl

theorem encode_eq_ok {c : Contract} (h : c.types.view name = .ok type) :
    c.encode config name v = .ok bs ↔
      ∃ content, Content.ofJson? c.types config.levels type v = some content ∧
        content.bytes = bs := by
  rw [encode, view_eq_ok.mpr h]
  exact Result.mapError_eq_ok.trans Encode.value_eq_ok

theorem decode_eq_ok {c : Contract} (h : c.types.view name = .ok type) :
    c.decode config name bs = .ok v ↔
      ∃ p, Decode.value c.types config config.levels type (.ofBytes bs) = .ok v ⟨p, []⟩ := by
  rw [decode, view_eq_ok.mpr h]
  simp only [bind, Except.bind]
  constructor
  · intro hd
    split at hd
    · cases hd
    · rename_i w rest hr
      split at hd
      · rename_i hempty
        cases hd
        obtain ⟨p, bs⟩ := rest
        cases List.isEmpty_iff.mp hempty
        exact ⟨p, hr⟩
      · cases hd
  · rintro ⟨p, hr⟩
    have hr : (Decode.value c.types config config.levels type).run (.ofBytes bs) =
      .ok v ⟨p, []⟩ := hr
    simp only [hr]
    rfl

theorem decode_eq_error {c : Contract} (h : c.types.view name = .ok type)
    (hd : c.decode config name bs = .error e) : ∃ fault, e = .decode name fault := by
  rw [decode, view_eq_ok.mpr h] at hd
  simp only [bind, Except.bind] at hd
  split at hd
  · cases hd
    exact ⟨_, rfl⟩
  · split at hd
    · cases hd
    · cases hd
      exact ⟨_, rfl⟩

/-- Encoding and then decoding with one more level gives the canonical form just if each part of
the value can be told from what could stand in its place; and then the canonical form encodes to
the same bytes. -/
theorem decode_encode_iff {d : Document} {t : TypeTable} (hbuild : TypeTable.build d = .ok t)
    (hview : t.view name = .ok type) (hfields : t.Throughout t.HasDistinctFields type)
    (hfloats : t.Throughout (Ty.Avoids Builtin.IsFloat) type)
    (hencode : (Contract.mk d t).encode config name v = .ok bs) :
    ∃ content, (Contract.mk d t).content? config name v = some content ∧
      ((Contract.mk d t).decode config.deeper name bs = .ok content.toJson ↔
        content.Everywhere (Content.IsReadable config.maxArrayLength) []) ∧
      (content.Everywhere (Content.IsReadable config.maxArrayLength) [] →
        (Contract.mk d t).encode config.deeper name content.toJson = .ok bs) := by
  obtain ⟨c, hc, rfl⟩ := (encode_eq_ok hview).mp hencode
  have hcontent := (content?_of_view (c := Contract.mk d t) hview config v).trans hc
  have htype : Content.HasType t config.deeper.levels type c := Content.hasType_of_ofJson? hc
  have hnested := TypeTable.isWellNested_of_view hbuild hview
  refine ⟨c, hcontent, (decode_eq_ok hview).trans ⟨?_, ?_⟩, ?_⟩
  · rintro ⟨p, hr⟩
    rw [Wire.Reader.ofBytes, ← List.append_nil c.bytes] at hr
    exact (Decode.returns_value htype hfields hnested 0 [] ⟨p, []⟩ hr).2
  · intro hP
    have hread : Wire.Reads (Decode.value t config.deeper config.deeper.levels type) c.bytes
        c.toJson [] := Decode.reads_value htype hfields hP
    have hr := hread 0
    rw [List.append_nil] at hr
    exact ⟨_, hr⟩
  · intro hP
    have htime : c.Everywhere (fun _ => Content.ShowsTime) [] := hP.mono fun _ _ h => h.time
    have hprintable : Content.IsPrintable t type := ⟨hfields, hfloats, hnested⟩
    exact (encode_eq_ok hview).mpr ⟨c, Content.ofJson?_toJson htype hprintable htime, rfl⟩

/-- A value whose parts can all be told from what could stand in their place comes back in its
canonical form, and the canonical form encodes to the same bytes. -/
theorem decode_encode_canonical {d : Document} {t : TypeTable}
    (hbuild : TypeTable.build d = .ok t) (hview : t.view name = .ok type)
    (hfields : t.Throughout t.HasDistinctFields type)
    (hfloats : t.Throughout (Ty.Avoids Builtin.IsFloat) type)
    (hreadable : ∀ content, (Contract.mk d t).content? config name v = some content →
      content.Everywhere (Content.IsReadable config.maxArrayLength) [])
    (hencode : (Contract.mk d t).encode config name v = .ok bs) :
    ∃ content, (Contract.mk d t).content? config name v = some content ∧
      (Contract.mk d t).decode config.deeper name bs = .ok content.toJson ∧
      (Contract.mk d t).encode config.deeper name content.toJson = .ok bs := by
  obtain ⟨content, hcontent, hdecode, hagain⟩ :=
    decode_encode_iff hbuild hview hfields hfloats hencode
  have hP := hreadable content hcontent
  exact ⟨content, hcontent, hdecode.mpr hP, hagain hP⟩

def noteDocument : Document :=
  { structs := [⟨"note", "", [⟨"id", "uint16"⟩, ⟨"tags", "uint8[]"⟩, ⟨"text", "string?"⟩,
      ⟨"owner", "name$"⟩]⟩] }

def noteTypes : TypeTable where
  structs := [⟨"note", [⟨"id", .builtin (.uint .w16)⟩, ⟨"tags", .array (.builtin (.uint .w8))⟩,
    ⟨"text", .optional (.builtin .string)⟩, ⟨"owner", .extension (.builtin .name)⟩]⟩]
  variants := []
  meanings :=
    { names := [("name$", .extension (.builtin .name)), ("name", .builtin .name),
        ("string?", .optional (.builtin .string)), ("string", .builtin .string),
        ("uint8[]", .array (.builtin (.uint .w8))), ("uint8", .builtin (.uint .w8)),
        ("uint16", .builtin (.uint .w16)), ("note", .struct "note")]
      types := [.struct "note", .builtin (.uint .w16), .builtin (.uint .w8),
        .array (.builtin (.uint .w8)), .builtin .string, .optional (.builtin .string),
        .builtin .name, .extension (.builtin .name)] }

theorem build_note : TypeTable.build noteDocument = .ok noteTypes := by decide +kernel

def note : Json :=
  .obj [("owner", .str "a"), ("id", .ofNat 1), ("tags", .arr [.ofNat 2, .ofNat 3])]

def noteContent : Content :=
  .struct [("id", .leaf (.uint .w16 1)),
    ("tags", .array [.leaf (.uint .w8 2), .leaf (.uint .w8 3)]), ("text", .null),
    ("owner", .present (.leaf (.name ⟨0x3000000000000000⟩)))]

def noteBytes : Bytes := [1, 0, 2, 2, 3, 0, 0, 0, 0, 0, 0, 0, 0, 0x30]

theorem decode_encode_note :
    (Contract.mk noteDocument noteTypes).encode {} "note" note = .ok noteBytes ∧
    (Contract.mk noteDocument noteTypes).content? {} "note" note = some noteContent ∧
    (Contract.mk noteDocument noteTypes).decode (Config.deeper {}) "note" noteBytes =
      .ok noteContent.toJson ∧
    (Contract.mk noteDocument noteTypes).encode (Config.deeper {}) "note" noteContent.toJson =
      .ok noteBytes := by
  have hencode : (Contract.mk noteDocument noteTypes).encode {} "note" note = .ok noteBytes := rfl
  have hcontent : (Contract.mk noteDocument noteTypes).content? {} "note" note =
    some noteContent := rfl
  have hview : noteTypes.view "note" = .ok (.struct "note") := rfl
  have hfields : noteTypes.Throughout noteTypes.HasDistinctFields (.struct "note") :=
    .of_closed noteTypes.meanings.types (by decide) (by decide) (by decide)
  have hfloats : noteTypes.Throughout (Ty.Avoids Builtin.IsFloat) (.struct "note") :=
    .of_closed noteTypes.meanings.types (by decide) (by decide) (by decide)
  have hreadable : noteContent.Everywhere (Content.IsReadable 65536) [] := by decide
  obtain ⟨content, hc, hdecode, hagain⟩ :=
    decode_encode_canonical build_note hview hfields hfloats
      (fun content hc => Option.some.inj (hcontent.symm.trans hc) ▸ hreadable) hencode
  cases hcontent.symm.trans hc
  exact ⟨hencode, hcontent, hdecode, hagain⟩

def markedDocument : Document :=
  { structs := [⟨"mark", "", []⟩, ⟨"marked", "", [⟨"id", "uint8"⟩, ⟨"mark", "mark$"⟩]⟩] }

def markedTypes : TypeTable where
  structs := [⟨"mark", []⟩,
    ⟨"marked", [⟨"id", .builtin (.uint .w8)⟩, ⟨"mark", .extension (.struct "mark")⟩]⟩]
  variants := []
  meanings :=
    { names := [("mark$", .extension (.struct "mark")), ("uint8", .builtin (.uint .w8)),
        ("mark", .struct "mark"), ("marked", .struct "marked")]
      types := [.struct "mark", .struct "marked", .builtin (.uint .w8),
        .extension (.struct "mark")] }

def marked : Json := .obj [("id", .ofNat 1), ("mark", .obj [])]

def markedContent : Content :=
  .struct [("id", .leaf (.uint .w8 1)), ("mark", .present (.struct []))]

/-- An extension that takes no bytes is lost, although its array lengths and times are in range. -/
theorem not_decode_encode_marked :
    TypeTable.build markedDocument = .ok markedTypes ∧
    markedTypes.view "marked" = .ok (.struct "marked") ∧
    markedTypes.Throughout markedTypes.HasDistinctFields (.struct "marked") ∧
    markedTypes.Throughout (Ty.Avoids Builtin.IsFloat) (.struct "marked") ∧
    (Contract.mk markedDocument markedTypes).encode {} "marked" marked = .ok [1] ∧
    (Contract.mk markedDocument markedTypes).content? {} "marked" marked = some markedContent ∧
    markedContent.Everywhere (Content.FitsArray 65536) [] ∧
    markedContent.Everywhere (fun _ => Content.ShowsTime) [] ∧
    (Contract.mk markedDocument markedTypes).decode (Config.deeper {}) "marked" [1] ≠
      .ok markedContent.toJson := by
  have hdecode : (Contract.mk markedDocument markedTypes).decode (Config.deeper {}) "marked" [1] =
    .ok (.obj [("id", .ofNat 1)]) := rfl
  refine ⟨by decide +kernel, rfl, ?_, ?_, rfl, rfl, by decide, by decide, ?_⟩
  · exact .of_closed markedTypes.meanings.types (by decide) (by decide) (by decide)
  · exact .of_closed markedTypes.meanings.types (by decide) (by decide) (by decide)
  · rw [hdecode]
    exact nofun

end Contract
end ChainKit.Abi
