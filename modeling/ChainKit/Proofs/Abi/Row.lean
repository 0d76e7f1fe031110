import ChainKit.Proofs.Abi.Plain
import ChainKit.Proofs.Json.Written

namespace ChainKit.Abi
set_option autoImplicit true
open Content (ofJson? fieldsOfJson?)

/-- Whether a value is shown as text, and is the value that its text says. -/
structure Leaf.IsTextual (l : Leaf) : Prop where
  valid : l.IsValid
  representable : l.IsRepresentable
  not_float : ¬l.type.IsFloat
  text : ∃ s, l.toJson = .str s

theorem Leaf.IsTextual.parse_toJson (h : Leaf.IsTextual l) : Leaf.parse l.type l.toJson = .ok l :=
  Leaf.parse_toJson h.valid h.representable h.not_float

theorem Leaf.isTextual_name (n : Name) : (Leaf.name n).IsTextual :=
  ⟨trivial, trivial, nofun, _, rfl⟩

theorem Leaf.isTextual_symbol (h : Symbol.IsProper s) : (Leaf.symbol s).IsTextual :=
  ⟨h, trivial, nofun, _, rfl⟩

theorem Leaf.isTextual_asset (h : a.symbol.IsProper) : (Leaf.asset a).IsTextual :=
  ⟨h, trivial, nofun, _, rfl⟩

theorem Leaf.isTextual_string {s : String} (h : s.utf8ByteSize < 2 ^ 32) :
    (Leaf.string s).IsTextual := by
  refine ⟨?_, trivial, nofun, _, rfl⟩
  rwa [Leaf.IsValid, Utf8.length_encode]

/-- Values of built-in types, each with its name. -/
abbrev Row := List (String × Leaf)

namespace Row

def fields (row : Row) : List Field := row.map fun p => ⟨p.1, .builtin p.2.type⟩

def members (row : Row) : List (String × Json) := row.map fun p => (p.1, p.2.toJson)

def contents (row : Row) : List (String × Content) := row.map fun p => (p.1, .leaf p.2)

def bytes (row : Row) : Bytes := row.flatMap fun p => p.2.toBytes

theorem fieldsBytes_contents (row : Row) : Content.fieldsBytes row.contents = row.bytes := by
  induction row with
  | nil => rfl
  | cons p row ih =>
    change p.2.toBytes ++ Content.fieldsBytes (contents row) = _
    rw [ih, bytes, bytes, List.flatMap_cons]

theorem fieldsJson_contents (row : Row) : Content.fieldsJson row.contents = row.members := by
  induction row with
  | nil => rfl
  | cons p row ih => exact congrArg ((p.1, p.2.toJson) :: ·) ih

/-- Whether the names are distinct, and the values are shown as text. -/
structure IsTextual (row : Row) : Prop where
  distinct : (row.map Prod.fst).Nodup
  textual : ∀ p ∈ row, p.2.IsTextual

theorem IsTextual.nodup_keys (h : IsTextual row) : (row.members.map Prod.fst).Nodup := by
  rw [members, List.map_map]
  exact h.distinct

theorem IsTextual.member? (h : IsTextual row) (hp : p ∈ row) :
    Json.member? row.members p.1 = some p.2.toJson :=
  Json.member?_of_mem h.nodup_keys (List.mem_map.mpr ⟨p, hp, rfl⟩)

theorem fieldsOfJson?_fields {row : Row} {ms : List (String × Json)}
    (h : ∀ p ∈ row, Json.member? ms p.1 = some p.2.toJson ∧
      Leaf.parse p.2.type p.2.toJson = .ok p.2)
    (t : TypeTable) (levels : Nat) :
    fieldsOfJson? (ofJson? t (levels + 1)) ms false row.fields = some row.contents := by
  induction row with
  | nil => rfl
  | cons p row ih =>
    obtain ⟨⟨hmember, hparse⟩, hrest⟩ := List.forall_mem_cons.mp h
    have hleaf : ofJson? t (levels + 1) (.builtin p.2.type) p.2.toJson = some (.leaf p.2) := by
      rw [ofJson?, hparse]
      rfl
    have hfields := ih hrest
    rw [fields] at hfields ⊢
    simp only [List.map_cons, fieldsOfJson?, hmember, hleaf, hfields]
    rfl

/-- What the object of a row says as a value of a struct with the fields of the row. -/
theorem IsTextual.ofJson? {config : Config} (h : IsTextual row) (hs : t.fieldsOf s = row.fields)
    (hdepth : 0 < config.maxDepth) :
    Content.ofJson? t config.levels (.struct s) (.obj row.members) =
      some (.struct row.contents) := by
  have hparse : ∀ p ∈ row, Json.member? row.members p.1 = some p.2.toJson ∧
      Leaf.parse p.2.type p.2.toJson = .ok p.2 :=
    fun p hp => ⟨h.member? hp, (h.textual p hp).parse_toJson⟩
  obtain ⟨levels, hlevels⟩ : ∃ levels, config.levels = levels + 2 :=
    ⟨config.maxDepth - 1, by rw [Config.levels]; omega⟩
  rw [hlevels, Content.ofJson?, hs, Content.structOfJson?, fieldsOfJson?_fields hparse t levels]
  rfl

variable {c : Contract}

theorem IsTextual.encode (h : IsTextual row) (hview : c.types.view name = .ok (.struct s))
    (hs : c.types.fieldsOf s = row.fields) (hdepth : 0 < config.maxDepth) :
    c.encode config name (.obj row.members) = .ok row.bytes :=
  (Contract.encode_eq_ok hview).mpr
    ⟨.struct row.contents, h.ofJson? hs hdepth, fieldsBytes_contents row⟩

theorem IsTextual.decode (h : IsTextual row) (hview : c.types.view name = .ok (.struct s))
    (hs : c.types.fieldsOf s = row.fields) (hplain : c.types.HasPlainFields s)
    (hdepth : 0 < config.maxDepth) :
    c.decode config name row.bytes = .ok (.obj row.members) := by
  obtain ⟨content, hcontent, hdecode⟩ :=
    Contract.decode_encode_of_plain hview hplain (h.encode hview hs hdepth)
  cases hcontent.symm.trans (h.ofJson? hs hdepth)
  rw [hdecode, Content.toJson, fieldsJson_contents]

theorem IsTextual.parse?_render (h : IsTextual row) :
    Json.parse? (Json.render (.obj row.members)) = some (.obj row.members) := by
  apply Json.parse?_render_obj h.nodup_keys
  intro m hm
  obtain ⟨p, hp, rfl⟩ := List.mem_map.mp hm
  obtain ⟨s, hs⟩ := (h.textual p hp).text
  rw [hs]
  rfl

end Row
end ChainKit.Abi
