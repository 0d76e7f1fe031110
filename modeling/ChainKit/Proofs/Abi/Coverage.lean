import ChainKit.Proofs.Abi.Growth
import ChainKit.Proofs.Abi.Plain
import ChainKit.Proofs.Abi.Record
import ChainKit.Proofs.Abi.Reencode
import ChainKit.Proofs.Abi.Unambiguous

namespace ChainKit.Abi
set_option autoImplicit true
open Content

/-- Whether each content of a type is what some value says that is written as JSON. -/
def Covers (t : TypeTable) (type : Ty) (R : α → Json → Prop) : Prop :=
  ∀ levels c, HasType t levels type c → ∃ a v, R a v ∧ ofJson? t levels type v = some c

variable {t : TypeTable}

namespace Covers

theorem mono {R : α → Json → Prop} {S : α → Json → Prop} (h : Covers t type R)
    (hrs : ∀ a v, R a v → S a v) : Covers t type S := by
  intro levels c hc
  obtain ⟨a, v, hr, hv⟩ := h levels c hc
  exact ⟨a, v, hrs a v hr, hv⟩

theorem leaf {R : α → Json → Prop}
    (h : ∀ l : Leaf, l.type = b → l.IsValid → ∃ a v, R a v ∧ Leaf.parse b v = .ok l) :
    Covers t (.builtin b) R := by
  intro levels c hc
  cases levels with
  | zero => exact hc.elim
  | succ levels =>
    cases c with
    | leaf l =>
      obtain ⟨a, v, hr, hv⟩ := h l hc.1 hc.2
      refine ⟨a, v, hr, ?_⟩
      simp only [ofJson?, hv]
      rfl
    | _ => exact hc.elim

theorem shown {b : Builtin} {R : α → Json → Prop} (hb : ¬b.IsFloat)
    (h : ∀ l : Leaf, l.type = b → l.IsValid → l.IsRepresentable ∧ ∃ a, R a l.toJson) :
    Covers t (.builtin b) R := by
  apply leaf
  rintro l rfl hl
  obtain ⟨hr, a, ha⟩ := h l rfl hl
  exact ⟨a, l.toJson, ha, Leaf.parse_toJson hl hr hb⟩

theorem string : Covers t (.builtin .string) fun s v => .str s = v := by
  apply shown
  · exact nofun
  · intro l hl _
    cases l with
    | string s => exact ⟨trivial, s, rfl⟩
    | _ => cases hl

theorem name : Covers t (.builtin .name) fun (n : Name) v => .str n.text = v := by
  apply shown
  · exact nofun
  · intro l hl _
    cases l with
    | name n => exact ⟨trivial, n, rfl⟩
    | _ => cases hl

theorem bytes : Covers t (.builtin .bytes) fun bs v => .str (Hex.encode bs) = v := by
  apply shown
  · exact nofun
  · intro l hl _
    cases l with
    | bytes bs => exact ⟨trivial, bs, rfl⟩
    | _ => cases hl

theorem timePointSec :
    Covers t (.builtin .timePointSec) fun (x : TimePointSec) v => .str x.text = v := by
  apply shown
  · exact nofun
  · intro l hl _
    cases l with
    | timePointSec x => exact ⟨trivial, x, rfl⟩
    | _ => cases hl

theorem varuint : Covers t (.builtin .varuint) fun (n : UInt32) v => .ofNat n.toNat = v := by
  apply shown
  · exact nofun
  · intro l hl hvalid
    cases l with
    | varuint n =>
      refine ⟨trivial, .ofNat n, ?_⟩
      rw [UInt32.toNat_ofNat_of_lt' hvalid]
      rfl
    | _ => cases hl

theorem uint (w : Width) {ofNat : Nat → α} {toNat : α → Nat}
    (hword : ∀ n, n < 2 ^ w.bits → toNat (ofNat n) = n) :
    Covers t (.builtin (.uint w)) fun a v => .ofNat (toNat a) = v := by
  apply leaf
  intro l hl hvalid
  cases l with
  | uint w' n =>
    cases hl
    refine ⟨ofNat n, .ofNat n, by rw [hword n hvalid], ?_⟩
    have hparse := Leaf.parseUnsigned_of_parseNat (b := .uint w) (Leaf.parseNat_ofNat n) hvalid
    exact Result.map_eq_ok.mpr ⟨n, hparse, rfl⟩
  | _ => cases hl

theorem word8 : Covers t (.builtin (.uint .w8)) fun (n : UInt8) v => .ofNat n.toNat = v :=
  uint .w8 fun _ => UInt8.toNat_ofNat_of_lt'

theorem word16 : Covers t (.builtin (.uint .w16)) fun (n : UInt16) v => .ofNat n.toNat = v :=
  uint .w16 fun _ => UInt16.toNat_ofNat_of_lt'

theorem word32 : Covers t (.builtin (.uint .w32)) fun (n : UInt32) v => .ofNat n.toNat = v :=
  uint .w32 fun _ => UInt32.toNat_ofNat_of_lt'

theorem word64 : Covers t (.builtin (.uint .w64)) fun (n : UInt64) v => .ofNat n.toNat = v :=
  uint .w64 fun _ => UInt64.toNat_ofNat_of_lt'

theorem each {R : α → Json → Prop} (h : Covers t item R) :
    Covers t (.array item) fun as v => ∃ vs, Result.Each R as vs ∧ .arr vs = v := by
  intro levels c hc
  cases levels with
  | zero => exact hc.elim
  | succ levels =>
    cases c with
    | array cs =>
      obtain ⟨hlen, hcs⟩ := hc
      have hitems : ∃ as vs, Result.Each R as vs ∧ vs.mapM (ofJson? t levels item) = some cs := by
        clear hlen
        induction cs with
        | nil => exact ⟨[], [], .nil, rfl⟩
        | cons c cs ih =>
          obtain ⟨hc, hcs⟩ := List.forall_mem_cons.mp hcs
          obtain ⟨a, v, hav, hv⟩ := h levels c hc
          obtain ⟨as, vs, heach, hvs⟩ := ih hcs
          refine ⟨a :: as, v :: vs, .cons hav heach, ?_⟩
          rw [List.mapM_cons, hv, hvs]
          rfl
      obtain ⟨as, vs, heach, hvs⟩ := hitems
      rw [Result.length_of_mapM hvs] at hlen
      refine ⟨as, .arr vs, ⟨vs, heach, rfl⟩, ?_⟩
      simp only [ofJson?, arrayOfJson?, if_neg (Nat.not_le_of_lt hlen), hvs]
      rfl
    | _ => exact hc.elim

theorem list {write : α → Json} (h : Covers t item fun a v => write a = v) :
    Covers t (.array item) fun (as : List α) v => .arr (as.map write) = v := by
  apply (each h).mono
  rintro as v ⟨vs, heach, rfl⟩
  rw [Result.map_eq_of_each heach]

theorem strings : Covers t (.array (.builtin .string)) fun ss v => Abi.strings ss = v := list string

theorem struct {R : α → Json → Prop} (hs : t.struct? s = some ⟨s, fs⟩)
    (h : ∀ levels cs, FieldsHave (HasType t levels) fs cs → ∃ a members, R a (.obj members) ∧
      fieldsOfJson? (ofJson? t levels) members false fs = some cs) : Covers t (.struct s) R := by
  intro levels c hc
  cases levels with
  | zero => exact hc.elim
  | succ levels =>
    cases c with
    | struct cs =>
      have hfields : t.fieldsOf s = fs := by
        rw [TypeTable.fieldsOf, hs]
        rfl
      have hcs : FieldsHave (HasType t levels) (t.fieldsOf s) cs := hc
      rw [hfields] at hcs
      obtain ⟨a, members, hr, hm⟩ := h levels cs hcs
      refine ⟨a, .obj members, hr, ?_⟩
      simp only [ofJson?, structOfJson?, hfields, hm]
      rfl
    | _ => exact hc.elim

end Covers

namespace Content

theorem fieldsOfJson?_field {f : Field} (hm : Json.member? members f.name = some v)
    (hv : value? f.type v = some c) (h : fieldsOfJson? value? members false fs = some cs) :
    fieldsOfJson? value? members false (f :: fs) = some ((f.name, c) :: cs) := by
  rw [fieldsOfJson?_there hm, hv, h]
  rfl

/-- What covers a field is left to be put among the members, and the fields behind it to be
covered; extensions may be absent from the field on. -/
theorem FieldsHave.covered_cases {R : α → Json → Prop}
    (h : FieldsHave (HasType t levels) (f :: fs) cs) (hr : Covers t f.type R) :
    (∃ a v cs', R a v ∧ FieldsHave (HasType t levels) fs cs' ∧ ∀ members,
      Json.member? members f.name = some v →
      fieldsOfJson? (ofJson? t levels) members false fs = some cs' →
      fieldsOfJson? (ofJson? t levels) members false (f :: fs) = some cs) ∨
    (f.type.isExtension ∧ cs = (f :: fs).map fun g => (g.name, Content.absent)) := by
  rcases h.cons_cases with ⟨c, cs', rfl, hc, h⟩ | habsent
  · obtain ⟨a, v, hav, hv⟩ := hr levels c hc
    exact .inl ⟨a, v, cs', hav, h, fun _ hm hcs => fieldsOfJson?_field hm hv hcs⟩
  · exact .inr habsent

theorem FieldsHave.covered {R : α → Json → Prop}
    (h : FieldsHave (HasType t levels) (f :: fs) cs) (hr : Covers t f.type R)
    (hf : ¬f.type.isExtension) :
    ∃ a v cs', R a v ∧ FieldsHave (HasType t levels) fs cs' ∧ ∀ members,
      Json.member? members f.name = some v →
      fieldsOfJson? (ofJson? t levels) members false fs = some cs' →
      fieldsOfJson? (ofJson? t levels) members false (f :: fs) = some cs := by
  rcases h.covered_cases hr with hthere | habsent
  · exact hthere
  · exact absurd habsent.1 hf

end Content

theorem Covers.extension {R : α → Json → Prop} (h : Covers t type R) :
    Covers t (.extension type) R := by
  intro levels c hc
  cases levels with
  | zero => exact hc.elim
  | succ levels =>
    cases c with
    | present c =>
      obtain ⟨a, v, hr, hv⟩ := h levels c hc
      refine ⟨a, v, hr, ?_⟩
      simp only [ofJson?, hv]
      rfl
    | _ => exact hc.elim

namespace Decode

/-- Decoding is strict where there is nothing but booleans to be strict about. -/
theorem value_strict (h : t.Throughout (Ty.Avoids (· = .bool)) type) (config : Config)
    (levels : Nat) :
    value t config levels type = value t { config with strictBool := true } levels type := by
  induction levels generalizing type with
  | zero => rfl
  | succ levels ih =>
    cases type with
    | builtin b =>
      cases b with
      | bool => exact absurd rfl h.here
      | _ => rfl
    | struct name =>
      simp only [value]
      exact struct_congr fun f hf => ih (h.part (.field hf))
    | variant name =>
      simp only [value]
      exact variant_congr fun m hm => ih (h.part (.member hm))
    | array item => simp only [value, ih (h.part .item)]
    | optional inner => simp only [value, ih (h.part .given)]
    | extension inner => simp only [value, ih (h.part .present)]

/-- Types without booleans that are decoded in the one way in which they are encoded. -/
structure IsSteady (t : TypeTable) (type : Ty) : Prop where
  faithful : IsFaithful t type
  noBool : t.Throughout (Ty.Avoids (· = .bool)) type

end Decode

namespace TypeTable

theorem isSteady_of_structs (ht : t.structs = ss) (hv : t.variants = [])
    (hs : .struct s ∈ occurring ss)
    (hclosed : ∀ u ∈ occurring ss, ∀ part ∈ (ofStructs ss).partsOf u, part ∈ occurring ss)
    (hdistinct : ∀ u ∈ occurring ss, (ofStructs ss).HasDistinctFields u)
    (hmembers : ∀ u ∈ occurring ss, (ofStructs ss).HasDistinctMembers u)
    (htokens : ∀ u ∈ occurring ss, u.Avoids Builtin.IsToken)
    (hextensions : ∀ u ∈ occurring ss, (ofStructs ss).HasExtensionsLast u)
    (hnested : ∀ u ∈ occurring ss, u.IsWellNested)
    (hnoBool : ∀ u ∈ occurring ss, u.Avoids (· = .bool)) : Decode.IsSteady t (.struct s) := by
  obtain ⟨structs, variants, meanings⟩ := t
  subst ht hv
  have hthroughout {P : Ty → Prop} (hP : ∀ u ∈ occurring structs, P u) :
      Throughout ⟨structs, [], meanings⟩ P (.struct s) := .of_closed _ hs hclosed hP
  exact ⟨⟨hthroughout hdistinct, hthroughout hmembers, hthroughout htokens,
    hthroughout hextensions, hthroughout hnested⟩, hthroughout hnoBool⟩

end TypeTable

namespace Contract

/-- What bytes are decoded as is the canonical form of a content of the type that the bytes
spell. -/
theorem content_of_decode {c : Contract} (hview : c.types.view name = .ok type)
    (hsteady : Decode.IsSteady c.types type) (hextension : type.isExtension = false)
    (hdecode : c.decode config name bs = .ok w) :
    ∃ content, HasType c.types config.levels type content ∧ content.toJson = w ∧
      content.IsSpelledBy bs := by
  obtain ⟨p, hrun⟩ := (decode_eq_ok hview).mp hdecode
  rw [Decode.value_strict hsteady.noBool] at hrun
  obtain ⟨used, hused, content, hcontent, hjson, hspelled⟩ :=
    (Decode.takes_value rfl hsteady.faithful config.levels).takes hextension _ _ _ hrun
  have hbs : bs = used := hused.trans (List.append_nil used)
  rw [← hbs] at hspelled
  exact ⟨content, hcontent.1, hjson, hspelled⟩

/-- What is written as a value with that content is encoded as its wire form. -/
theorem exists_written_of_decode {c : Contract} {R : α → Json → Prop}
    (hview : c.types.view name = .ok type) (hsteady : Decode.IsSteady c.types type)
    (hextension : type.isExtension = false) (hcovers : Covers c.types type R)
    (hdecode : c.decode config name bs = .ok w) :
    ∃ a v content, R a v ∧ ofJson? c.types config.levels type v = some content ∧
      HasType c.types config.levels type content ∧ content.toJson = w ∧ content.IsSpelledBy bs ∧
      c.encode config name v = .ok content.bytes := by
  obtain ⟨content, hcontent, hjson, hspelled⟩ :=
    content_of_decode hview hsteady hextension hdecode
  obtain ⟨a, v, hav, hv⟩ := hcovers config.levels content hcontent
  exact ⟨a, v, content, hav, hv, hcontent, hjson, hspelled,
    (encode_eq_ok hview).mpr ⟨content, hv, rfl⟩⟩

end Contract
end ChainKit.Abi
