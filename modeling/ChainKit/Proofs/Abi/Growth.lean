import ChainKit.Proofs.Abi.Declared
import ChainKit.Proofs.Abi.Resolution.Growth
import ChainKit.Proofs.Abi.RoundTrip

namespace ChainKit.Abi

namespace TypeTable
set_option autoImplicit true

/-- Whether two tables declare the same under the name of a struct or variant. -/
def AgreesAt (t t' : TypeTable) : Ty → Prop
  | .struct name => t.struct? name = t'.struct? name
  | .variant name => t.variant? name = t'.variant? name
  | _ => True

variable {d : Document} {t t' : TypeTable}

theorem IsGrown.agreesAt (h : t.IsGrown t' name extra) (hne : type ≠ .struct name) :
    t.AgreesAt t' type := by
  cases type with
  | struct n =>
    apply (h.struct?_of_ne _).symm
    rintro rfl
    exact hne rfl
  | variant n => exact (h.variant? n).symm
  | _ => trivial

/-- Whether no field of a struct, those of its bases included, reaches the struct. -/
def IsNotRecursive (t : TypeTable) (name : String) : Prop :=
  ∀ f ∈ t.fieldsOf name, ¬t.Reaches f.type (.struct name)

theorem IsGrown.agreesThroughout (h : t.IsGrown t' name extra) (hself : t.IsNotRecursive name)
    (hs : t.struct? name = some s) (hf : f ∈ s.fields) : t.Throughout (t.AgreesAt t') f.type := by
  have hf : f ∈ t.fieldsOf name := by
    rw [fieldsOf, hs]
    exact hf
  intro deep hdeep
  apply h.agreesAt
  rintro rfl
  exact hself f hf hdeep

theorem IsOf.view_struct (ht : t.IsOf d) (hs : s ∈ d.structs) :
    t.view s.name = .ok (.struct s.name) := by
  have hknown : t.lookup? s.name = some (.struct s.name) :=
    ht.sound.declared s.name _ (.struct hs)
  rw [view, viewWithin, hknown]
  rfl

/-- The fields that a document gives a struct have types, and if these are extensions then so are
those of the fields of the table. -/
theorem IsOf.exists_extensions (ht' : t'.IsOf d)
    (h : ∀ f ∈ extra, ∃ type, t'.lookup? f.type = some type ∧ type.isExtension) :
    ∃ gs, Result.Each d.FieldMeans extra gs ∧ (∀ g ∈ gs, g.type.isExtension) ∧
      ∀ g ∈ gs, ∃ f ∈ extra, g.name = f.name := by
  have heach : ∀ f ∈ extra, ∃ g, d.FieldMeans f g ∧ g.type.isExtension := by
    intro f hf
    obtain ⟨type, hlookup, hext⟩ := h f hf
    exact ⟨⟨f.name, type⟩, ⟨rfl, ht'.sound.means f.type type hlookup⟩, hext⟩
  obtain ⟨gs, hgs⟩ := Result.exists_each.mpr heach
  refine ⟨gs, hgs.mono fun _ _ h => h.1, ?_, ?_⟩
  · intro g hg
    obtain ⟨f, -, -, hext⟩ := hgs.mem hg
    exact hext
  · intro g hg
    obtain ⟨f, hf, hmeans, -⟩ := hgs.mem hg
    exact ⟨f, hf, hmeans.1⟩

end TypeTable

namespace Decode
set_option autoImplicit true

section

variable {value value' : Ty → Decode Json}

theorem fields_congr (h : ∀ f ∈ fs, value f.type = value' f.type) (done : List (String × Json)) :
    fields value done fs = fields value' done fs := by
  induction fs generalizing done with
  | nil => rfl
  | cons f fs ih =>
    obtain ⟨hf, hfs⟩ := List.forall_mem_cons.mp h
    simp only [fields, hf, ih hfs]

theorem struct_congr {s : StructType} (h : ∀ f ∈ s.fields, value f.type = value' f.type) :
    struct value s = struct value' s := by
  rw [struct, struct, fields_congr h]

theorem variant_congr {v : VariantType} (h : ∀ m ∈ v.members, value m.type = value' m.type) :
    variant value v = variant value' v := by
  unfold variant
  congr 1
  funext offset
  congr 1
  funext tag
  cases hm : v.members[tag]? with
  | none => rfl
  | some m => simp only [h m (List.mem_of_getElem? hm)]

theorem fields_append (done : List (String × Json)) (fs gs : List Field) :
    fields value done (fs ++ gs) = fields value done fs >>= fun done => fields value done gs := by
  induction fs generalizing done with
  | nil => rfl
  | cons f fs ih =>
    rw [List.cons_append, fields_cons, fields_cons]
    simp only [ih, ← bind_assoc]
    funext r
    change _ = EStateM.bind _ _ r
    simp only [EStateM.bind]
    cases f.type.isExtension && r.isEmpty with
    | true => rfl
    | false => rfl

/-- Extensions behind the fields of a struct are left out at the end of the data. -/
theorem struct_append {s : StructType} (h : ∀ f ∈ s.fields, value f.type = value' f.type)
    (hext : ∀ g ∈ gs, g.type.isExtension) (hread : struct value s r = .ok w ⟨p, []⟩) :
    struct value' { s with fields := s.fields ++ gs } r = .ok w ⟨p, []⟩ := by
  obtain ⟨done, r', hfields, hdone⟩ := Wire.bind_eq_ok hread
  cases hdone
  rw [fields_congr h] at hfields
  rw [struct, fields_append]
  simp only [bind, EStateM.bind, hfields, fields_atEnd hext]
  rfl

end

theorem value_congr {t t' : TypeTable} (h : t.Throughout (t.AgreesAt t') type) (c : Config)
    (levels : Nat) : value t c levels type = value t' c levels type := by
  induction levels generalizing type with
  | zero => rfl
  | succ levels ih =>
    cases type with
    | builtin b => rfl
    | struct name =>
      have hsame : t.struct? name = t'.struct? name := h.here
      simp only [value, ← hsame]
      exact struct_congr fun f hf => ih (h.part (.field hf))
    | variant name =>
      have hsame : t.variant? name = t'.variant? name := h.here
      simp only [value, ← hsame]
      exact variant_congr fun m hm => ih (h.part (.member hm))
    | array item => simp only [value, ih (h.part .item)]
    | optional inner => simp only [value, ih (h.part .given)]
    | extension inner => simp only [value, ih (h.part .present)]

/-- What was decoded as a struct up to the end of the data is so with more extensions. -/
theorem value_of_isGrown {t t' : TypeTable} (h : t.IsGrown t' name extra)
    (hself : t.IsNotRecursive name) (hs : t.struct? name = some s)
    (hext : ∀ g ∈ extra, g.type.isExtension)
    (hread : value t c levels (.struct name) r = .ok w ⟨p, []⟩) :
    value t' c levels (.struct name) r = .ok w ⟨p, []⟩ := by
  cases levels with
  | zero => exact hread
  | succ levels =>
    simp only [value, hs, h.struct?_self hs, Option.getD_some] at hread ⊢
    apply struct_append _ hext hread
    intro f hf
    exact value_congr (h.agreesThroughout hself hs hf) c levels

end Decode

namespace Encode
set_option autoImplicit true

section

variable {value value' : Ty → Encoder}

theorem fields_congr (h : ∀ f ∈ fs, value f.type = value' f.type)
    (members : List (String × Json)) (absent : Option String) :
    fields value members absent fs = fields value' members absent fs := by
  induction fs generalizing absent with
  | nil => rfl
  | cons f fs ih =>
    obtain ⟨hf, hfs⟩ := List.forall_mem_cons.mp h
    obtain ⟨name, type⟩ := f
    cases hm : Json.member? members name with
    | some v =>
      cases absent with
      | none => simp only [fields, hm, hf, ih hfs]
      | some e => simp only [fields, hm]
    | none =>
      cases type with
      | extension inner => simp only [fields, hm, ih hfs]
      | _ =>
        cases absent with
        | none => simp only [fields, hm, ih hfs]
        | some e => simp only [fields, hm]

theorem struct_congr {s : StructType} (h : ∀ f ∈ s.fields, value f.type = value' f.type) :
    struct value s = struct value' s := by
  funext v
  cases v with
  | obj members => exact fields_congr h members none
  | _ => rfl

theorem variant_congr {u : VariantType} (h : ∀ m ∈ u.members, value m.type = value' m.type) :
    variant value u = variant value' u := by
  funext v
  unfold variant
  split
  · rename_i tag inner
    cases hi : u.members.findIdx? fun m => m.name == tag with
    | none => rfl
    | some i =>
      obtain ⟨m, hm, -⟩ := Result.getElem?_of_findIdx? hi
      simp only [hm, Option.map_some, Option.getD_some, h m (List.mem_of_getElem? hm)]
  · rfl

theorem fields_of_absent (hext : ∀ g ∈ gs, g.type.isExtension)
    (hnone : ∀ g ∈ gs, Json.member? members g.name = none) (absent : Option String) :
    fields value members absent gs = .ok [] := by
  induction gs generalizing absent with
  | nil => rfl
  | cons g gs ih =>
    obtain ⟨hg, hgs⟩ := List.forall_mem_cons.mp hext
    obtain ⟨hmember, hmembers⟩ := List.forall_mem_cons.mp hnone
    obtain ⟨name, type⟩ := g
    cases type with
    | extension inner =>
      simp only [fields, hmember]
      exact ih hgs hmembers _
    | _ => cases hg

theorem fields_append {gs : List Field} (hext : ∀ g ∈ gs, g.type.isExtension)
    (hnone : ∀ g ∈ gs, Json.member? members g.name = none) (fs : List Field)
    (absent : Option String) :
    fields value members absent (fs ++ gs) = fields value members absent fs := by
  induction fs generalizing absent with
  | nil => exact fields_of_absent hext hnone absent
  | cons f fs ih => simp only [List.cons_append, fields, ih]

theorem struct_append {s : StructType} (h : ∀ f ∈ s.fields, value f.type = value' f.type)
    (hext : ∀ g ∈ gs, g.type.isExtension)
    (hnone : ∀ g ∈ gs, Json.member? members g.name = none) :
    struct value' { s with fields := s.fields ++ gs } (.obj members) =
      struct value s (.obj members) := by
  rw [struct, struct, fields_append hext hnone, fields_congr h]

end

theorem value_congr {t t' : TypeTable} (h : t.Throughout (t.AgreesAt t') type) (levels : Nat) :
    value t levels type = value t' levels type := by
  induction levels generalizing type with
  | zero => rfl
  | succ levels ih =>
    funext v
    cases type with
    | builtin b => rfl
    | struct name =>
      have hsame : t.struct? name = t'.struct? name := h.here
      simp only [value, ← hsame]
      exact congrFun (struct_congr fun f hf => ih (h.part (.field hf))) v
    | variant name =>
      have hsame : t.variant? name = t'.variant? name := h.here
      simp only [value, ← hsame]
      exact congrFun (variant_congr fun m hm => ih (h.part (.member hm))) v
    | array item => simp only [value, ih (h.part .item)]
    | optional inner =>
      cases v with
      | null => rfl
      | _ => simp only [value, ih (h.part .given)]
    | extension inner => simp only [value, ih (h.part .present)]

/-- An object without members for new extensions of a struct is encoded as before. -/
theorem value_of_isGrown {t t' : TypeTable} (h : t.IsGrown t' name extra)
    (hself : t.IsNotRecursive name) (hs : t.struct? name = some s)
    (hext : ∀ g ∈ extra, g.type.isExtension)
    (hnone : ∀ g ∈ extra, Json.member? members g.name = none) (levels : Nat) :
    value t' levels (.struct name) (.obj members) =
      value t levels (.struct name) (.obj members) := by
  cases levels with
  | zero => rfl
  | succ levels =>
    simp only [value, hs, h.struct?_self hs, Option.getD_some]
    apply struct_append _ hext hnone
    intro f hf
    exact value_congr (h.agreesThroughout hself hs hf) levels

end Encode

namespace Contract
set_option autoImplicit true
open TypeTable

/-- A struct may gain extensions. If it is no other struct's base and none of its fields, those of
its bases included, reaches it, then bytes that were decoded as the struct are decoded as the same
value by the new document, and an object without members for the new fields is encoded as before,
or fails as before. -/
theorem withFields_compatible {d : Document} {t t' : TypeTable} (hbuild : build d = .ok t)
    (hbuild' : build (d.withFields name extra) = .ok t') (hstruct : ∃ s ∈ d.structs, s.name = name)
    (hextra : ∀ f ∈ extra, ∃ type, t'.lookup? f.type = some type ∧ type.isExtension)
    (hbase : d.IsNoBase name) (hself : t.IsNotRecursive name) (config : Config) :
    (∀ bs w, (Contract.mk d t).decode config name bs = .ok w →
      (Contract.mk (d.withFields name extra) t').decode config name bs = .ok w) ∧
    ∀ members, (∀ f ∈ extra, Json.member? members f.name = none) →
      (Contract.mk (d.withFields name extra) t').encode config name (.obj members) =
        (Contract.mk d t).encode config name (.obj members) := by
  have ht := isOf_of_build hbuild
  have ht' := isOf_of_build hbuild'
  obtain ⟨s, hs, rfl⟩ := hstruct
  obtain ⟨gs, hmeans, hext, hnames⟩ := ht'.exists_extensions hextra
  have hgrown := ht.isGrown ht' hbase hmeans
  obtain ⟨st, -, -, hst, -⟩ := ht.holdsStructs.mem_left hs
  have hview := ht.view_struct hs
  have hview' : t'.view s.name = .ok (.struct s.name) := by
    have hview' := ht'.view_struct (List.mem_map_of_mem (f := StructDef.growing s.name extra) hs)
    rwa [StructDef.name_growing] at hview'
  constructor
  · intro bs w hdecode
    obtain ⟨p, hrun⟩ := (decode_eq_ok (c := ⟨d, t⟩) hview).mp hdecode
    apply (decode_eq_ok (c := ⟨d.withFields s.name extra, t'⟩) hview').mpr
    exact ⟨p, Decode.value_of_isGrown hgrown hself hst hext hrun⟩
  · intro members hnone
    have hmembers : ∀ g ∈ gs, Json.member? members g.name = none := by
      intro g hg
      obtain ⟨f, hf, hname⟩ := hnames g hg
      rw [hname]
      exact hnone f hf
    have hvalue := Encode.value_of_isGrown hgrown hself hst hext hmembers config.levels
    rw [encode, encode, view_eq_ok.mpr hview', view_eq_ok.mpr hview]
    exact congrArg (·.mapError (Error.encode s.name)) hvalue

/-- Entries behind a head, with a memo that may be missing. -/
def entryDocument : Document :=
  { aliases := [⟨"tag", "uint8"⟩]
    structs := [⟨"head", "", [⟨"id", "uint16"⟩]⟩,
      ⟨"entry", "head", [⟨"tags", "tag[]"⟩, ⟨"memo", "string$"⟩]⟩] }

def entryExtensions : List FieldDef := [⟨"owner", "name$"⟩, ⟨"labels", "tag[]$"⟩]

def entryTypes : TypeTable where
  structs := [⟨"head", [⟨"id", .builtin (.uint .w16)⟩]⟩,
    ⟨"entry", [⟨"id", .builtin (.uint .w16)⟩, ⟨"tags", .array (.builtin (.uint .w8))⟩,
      ⟨"memo", .extension (.builtin .string)⟩]⟩]
  variants := []
  meanings :=
    { names := [("string$", .extension (.builtin .string)), ("string", .builtin .string),
        ("tag[]", .array (.builtin (.uint .w8))), ("tag", .builtin (.uint .w8)),
        ("uint8", .builtin (.uint .w8)), ("uint16", .builtin (.uint .w16)),
        ("head", .struct "head"), ("entry", .struct "entry")]
      types := [.struct "head", .struct "entry", .builtin (.uint .w16), .builtin (.uint .w8),
        .array (.builtin (.uint .w8)), .builtin .string, .extension (.builtin .string)] }

def extendedTypes : TypeTable where
  structs := entryTypes.structs.map (StructType.growing "entry"
    [⟨"owner", .extension (.builtin .name)⟩,
      ⟨"labels", .extension (.array (.builtin (.uint .w8)))⟩])
  variants := []
  meanings :=
    { names := [("tag[]$", .extension (.array (.builtin (.uint .w8)))),
        ("name$", .extension (.builtin .name)), ("name", .builtin .name)] ++
          entryTypes.meanings.names
      types := entryTypes.meanings.types ++ [.builtin .name, .extension (.builtin .name),
        .extension (.array (.builtin (.uint .w8)))] }

def entryMembers : List (String × Json) :=
  [("id", .ofNat 1), ("tags", .arr [.ofNat 2, .ofNat 3])]

def entryBytes : Bytes := [1, 0, 2, 2, 3]

theorem withFields_compatible_entry :
    TypeTable.build entryDocument = .ok entryTypes ∧
    TypeTable.build (entryDocument.withFields "entry" entryExtensions) = .ok extendedTypes ∧
    (Contract.mk (entryDocument.withFields "entry" entryExtensions) extendedTypes).decode {} "entry"
      entryBytes = .ok (.obj entryMembers) ∧
    (Contract.mk (entryDocument.withFields "entry" entryExtensions) extendedTypes).encode {} "entry"
      (.obj entryMembers) = .ok entryBytes := by
  have hbuild : TypeTable.build entryDocument = .ok entryTypes := by decide +kernel
  have hbuild' : TypeTable.build (entryDocument.withFields "entry" entryExtensions) =
    .ok extendedTypes := by decide +kernel
  have hextra : ∀ f ∈ entryExtensions, ∃ type, extendedTypes.lookup? f.type = some type ∧
      type.isExtension :=
    List.forall_mem_cons.mpr ⟨⟨_, rfl, rfl⟩, List.forall_mem_singleton.mpr ⟨_, rfl, rfl⟩⟩
  have hself : entryTypes.IsNotRecursive "entry" := by
    have hmem : ∀ f ∈ entryTypes.fieldsOf "entry", f.type ∈ entryTypes.meanings.types.drop 2 := by
      decide
    intro f hf hreaches
    have hne : entryTypes.Throughout (· ≠ .struct "entry") f.type :=
      .of_closed _ (hmem f hf) (by decide) (by decide)
    exact hne _ hreaches rfl
  have hstruct : ∃ s ∈ entryDocument.structs, s.name = "entry" :=
    ⟨_, List.mem_cons_of_mem _ List.mem_cons_self, rfl⟩
  obtain ⟨hdecode, hencode⟩ :=
    withFields_compatible hbuild hbuild' hstruct hextra (by decide) hself {}
  exact ⟨hbuild, hbuild', hdecode entryBytes _ rfl, (hencode entryMembers (by decide)).trans rfl⟩

end Contract
end ChainKit.Abi
