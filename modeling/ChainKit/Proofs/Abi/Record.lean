import ChainKit.Abi.Document.Json
import ChainKit.Node.Message
import ChainKit.Proofs.Abi.Canonical
import ChainKit.Proofs.Json.Record

namespace ChainKit.Abi
set_option autoImplicit true
open Json (Source Record)
open Content

namespace Content

theorem fieldsJson_sublist (cs : List (String × Content)) :
    ((fieldsJson cs).map Prod.fst).Sublist (cs.map Prod.fst) := by
  induction cs with
  | nil => exact .slnil
  | cons c cs ih =>
    obtain ⟨name, c⟩ := c
    cases c with
    | absent => exact ih.cons name
    | _ => exact ih.cons_cons name

theorem names_of_fieldsOfJson? (h : fieldsOfJson? value? members behind fs = some cs) :
    cs.map Prod.fst = fs.map Field.name := by
  induction fs generalizing behind cs with
  | nil =>
    have hcs : cs = [] := by cases behind <;> cases h <;> rfl
    rw [hcs]
    rfl
  | cons f fs ih =>
    rcases fieldsOfJson?_cons h with ⟨-, v, c, cs', -, -, hcs, rfl⟩ |
      ⟨-, -, inner, cs', -, hcs, rfl⟩ | ⟨-, -, cs', hcs, rfl⟩
    all_goals rw [List.map_cons, List.map_cons, ih hcs]

theorem member?_fieldsJson_of_not_mem (h : fieldsOfJson? value? members behind fs = some cs)
    (hname : name ∉ fs.map Field.name) : Json.member? (fieldsJson cs) name = none := by
  rw [Json.member?, List.lookup_eq_none_iff]
  intro m hm
  apply bne_iff_ne.mpr
  rintro rfl
  apply hname
  rw [← names_of_fieldsOfJson? h]
  exact (fieldsJson_sublist cs).mem (List.mem_map_of_mem hm)

theorem member?_fieldsJson (hne : ∀ type v c, value? type v = some c → c ≠ absent)
    (h : fieldsOfJson? value? members behind fs = some cs) (hnodup : (fs.map Field.name).Nodup)
    (hf : f ∈ fs) :
    (∀ v, Json.member? members f.name = some v → ∃ c, value? f.type v = some c ∧
      Json.member? (fieldsJson cs) f.name = some c.toJson) ∧
    (Json.member? members f.name = none → f.type.isExtension →
      Json.member? (fieldsJson cs) f.name = none) := by
  induction fs generalizing behind cs with
  | nil => cases hf
  | cons g fs ih =>
    have hg := List.nodup_cons.mp hnodup
    rcases List.mem_cons.mp hf with rfl | hf
    · rcases fieldsOfJson?_cons h with ⟨-, v, c, cs', hm, hc, hcs, rfl⟩ |
        ⟨-, hm, inner, cs', htype, hcs, rfl⟩ | ⟨hm, hext, cs', hcs, rfl⟩
      · rw [hm, fieldsJson_cons (hne _ _ _ hc), Json.member?_cons_self]
        refine ⟨?_, nofun⟩
        intro w hw
        cases hw
        exact ⟨c, hc, rfl⟩
      · rw [hm, htype]
        exact ⟨nofun, nofun⟩
      · rw [hm]
        have hnone : Json.member? (fieldsJson cs') f.name = none :=
          member?_fieldsJson_of_not_mem hcs hg.1
        exact ⟨nofun, fun _ _ => hnone⟩
    · have hfg : f.name ≠ g.name := fun he => hg.1 (he ▸ List.mem_map_of_mem hf)
      rcases fieldsOfJson?_cons h with ⟨-, v, c, cs', -, hc, hcs, rfl⟩ |
        ⟨-, -, inner, cs', -, hcs, rfl⟩ | ⟨-, -, cs', hcs, rfl⟩
      · rw [fieldsJson_cons (hne _ _ _ hc), Json.member?_cons_of_ne hfg]
        exact ih hcs hg.2 hf
      · rw [fieldsJson_cons (c := null) nofun, Json.member?_cons_of_ne hfg]
        exact ih hcs hg.2 hf
      · have hrest := ih hcs hg.2 hf
        exact hrest

end Content

theorem word32?_ofNat (n : UInt32) : word32? (.ofJson (.ofNat n.toNat)) = some n := by
  rw [word32?, Source.nat?_ofNat n.toNat_lt, Option.map_some, UInt32.ofNat_toNat]

/-- Whether `a` is read from the canonical form of what a JSON value says as a value of a type. -/
def Restores (t : TypeTable) (type : Ty) (v : Json) (read? : Source → Option α) (a : α) : Prop :=
  ∀ levels c, ofJson? t levels type v = some c → read? (.ofJson c.toJson) = some a

variable {t : TypeTable}

theorem mapM_read {read? : Source → Option α}
    (h : Result.Each (fun v a => ∀ c, item? v = some c → read? (.ofJson c.toJson) = some a) vs as)
    (hcs : vs.mapM item? = some cs) :
    ((itemsJson cs).mapM fun v => read? (.ofJson v)) = some as := by
  induction h generalizing cs with
  | nil =>
    cases hcs
    rfl
  | cons hv _ ih =>
    rw [List.mapM_cons] at hcs
    obtain ⟨c, hc, hrest⟩ := Option.bind_eq_some_iff.mp hcs
    obtain ⟨cs', hcs', hcons⟩ := Option.bind_eq_some_iff.mp hrest
    cases hcons
    rw [itemsJson, List.mapM_cons, hv c hc, ih hcs']
    rfl

namespace Restores

theorem mono {read? : Source → Option α} {read'? : Source → Option β}
    (h : Restores t type v read? a) (hread : ∀ s, read? s = some a → read'? s = some b) :
    Restores t type v read'? b := fun levels c hc => hread _ (h levels c hc)

theorem leaf {read? : Source → Option α}
    (h : ∀ l, Leaf.parse b v = .ok l → read? (.ofJson l.toJson) = some a) :
    Restores t (.builtin b) v read? a := by
  intro levels c hc
  cases levels with
  | zero => cases hc
  | succ levels =>
    obtain ⟨l, hl, rfl⟩ := Option.map_eq_some_iff.mp hc
    exact h l (Result.toOption_eq_some.mp hl)

theorem shown {l : Leaf} {read? : Source → Option α} (hl : l.IsValid) (hr : l.IsRepresentable)
    (hf : ¬l.type.IsFloat) (hread : read? (.ofJson l.toJson) = some a) :
    Restores t (.builtin l.type) l.toJson read? a := by
  apply leaf
  intro l' h
  cases (Leaf.parse_toJson hl hr hf).symm.trans h
  exact hread

theorem string (s : String) : Restores t (.builtin .string) (.str s) Source.string? s := by
  apply leaf
  intro l hl
  obtain ⟨s', hs, hl⟩ := Result.bind_eq_ok.mp hl
  obtain ⟨-, -, hl⟩ := Result.bind_eq_ok.mp hl
  cases hl
  cases hs
  rfl

theorem name (n : Name) : Restores t (.builtin .name) (.str n.text) name? n := by
  apply shown (l := .name n) trivial trivial nofun
  exact Source.text?_of_eq_ok (Name.parse_text n)

theorem decoded {read? : Source → Option α}
    (h : ∀ bs, Hex.decode s = .ok bs → read? (.ofJson (.str (Hex.encode bs))) = some a) :
    Restores t (.builtin .bytes) (.str s) read? a := by
  apply leaf
  intro l hl
  obtain ⟨bs, hbs, hl⟩ := Result.bind_eq_ok.mp hl
  obtain ⟨-, -, hl⟩ := Result.bind_eq_ok.mp hl
  cases hl
  exact h bs (Result.mapError_eq_ok.mp hbs)

theorem hex (s : String) : Restores t (.builtin .bytes) (.str s) Source.string? s.toLower := by
  apply decoded
  intro bs hbs
  rw [Hex.encode_of_decode hbs]
  rfl

theorem hexText (bs : Bytes) :
    Restores t (.builtin .bytes) (.str (Hex.encode bs)) Source.string? (Hex.encode bs) := by
  have hhex := hex (t := t) (Hex.encode bs)
  rwa [← Hex.encode_of_decode (Hex.decode_encode bs)] at hhex

theorem bytes (bs : Bytes) :
    Restores t (.builtin .bytes) (.str (Hex.encode bs)) (Source.text? Hex.decode) bs := by
  apply decoded
  intro bs' hbs
  cases (Hex.decode_encode bs).symm.trans hbs
  exact Source.text?_of_eq_ok hbs

theorem uint (w : Width) (h : n < bound) (hw : w.isNarrow) (hbound : bound = 2 ^ w.bits) :
    Restores t (.builtin (.uint w)) (.ofNat n) (Source.nat? bound) n := by
  subst hbound
  have hjson : (Leaf.uint w n).toJson = .ofNat n := if_pos hw
  have hshown : Source.nat? (2 ^ w.bits) (.ofJson (Leaf.uint w n).toJson) = some n := by
    rw [hjson]
    exact Source.nat?_ofNat h
  have hrestores := shown (t := t) (l := .uint w n) h trivial nofun hshown
  rwa [hjson] at hrestores

theorem word32 (n : UInt32) :
    Restores t (.builtin (.uint .w32)) (.ofNat n.toNat) word32? n := by
  apply shown (l := .uint .w32 n.toNat) n.toNat_lt trivial nofun
  exact word32?_ofNat n

theorem varuint (n : UInt32) : Restores t (.builtin .varuint) (.ofNat n.toNat) word32? n := by
  apply shown (l := .varuint n.toNat) n.toNat_lt trivial nofun
  exact word32?_ofNat n

theorem timePointSec (x : TimePointSec) :
    Restores t (.builtin .timePointSec) (.str x.text) (Source.text? TimePointSec.parse) x := by
  apply shown (l := .timePointSec x) trivial trivial nofun
  exact Source.text?_of_eq_ok (TimePointSec.parse_text x)

theorem code (n : UInt64) :
    Restores t (.builtin (.uint .w64)) (.ofNat n.toNat) codeOfSource? n := by
  apply leaf
  intro l hl
  have hnat : Leaf.parseUnsigned (.uint .w64) 64 (.ofNat n.toNat) = .ok n.toNat :=
    Leaf.parseUnsigned_of_parseNat (Leaf.parseNat_ofNat n.toNat) n.toNat_lt
  have hparse : Leaf.parse (.uint .w64) (.ofNat n.toNat) = .ok (.uint .w64 n.toNat) :=
    Result.map_eq_ok.mpr ⟨n.toNat, hnat, rfl⟩
  cases hparse.symm.trans hl
  have hlt : n.toNat < 2 ^ 64 := n.toNat_lt
  change codeOfText? (Decimal.showNat n.toNat) = some n
  simp only [codeOfText?, Decimal.showNat, String.toList_ofList, Decimal.nat?_ofNat,
    Option.filter_some, hlt, decide_true, if_true, Option.map_some, UInt64.ofNat_toNat]

theorem each {read? : Source → Option α}
    (h : Result.Each (fun v a => Restores t item v read? a) vs as) :
    Restores t (.array item) (.arr vs) (Source.list? read?) as := by
  intro levels c hc
  cases levels with
  | zero => cases hc
  | succ levels =>
    simp only [ofJson?, arrayOfJson?] at hc
    split at hc
    · cases hc
    · obtain ⟨cs, hcs, rfl⟩ := Option.map_eq_some_iff.mp hc
      rw [toJson, Source.list?_ofJson]
      exact mapM_read (h.mono fun _ _ hv => hv levels) hcs

theorem map {write : α → Json} {read? : Source → Option β} {f : α → β}
    (h : ∀ a, Restores t item (write a) read? (f a)) (as : List α) :
    Restores t (.array item) (.arr (as.map write)) (Source.list? read?) (as.map f) :=
  each (.map h as)

theorem list {write : α → Json} {read? : Source → Option α}
    (h : ∀ a, Restores t item (write a) read? a) (as : List α) :
    Restores t (.array item) (.arr (as.map write)) (Source.list? read?) as := by
  have hmap := map h as
  rwa [List.map_id'] at hmap

theorem strings (ss : List String) :
    Restores t (.array (.builtin .string)) (Abi.strings ss) strings? ss :=
  list string ss

theorem extension {read? : Source → Option α} (hnull : read? .null = none)
    (h : Restores t type v read? a) :
    Restores t (.extension type) v (Source.nullable? read?) (some a) := by
  intro levels c hc
  cases levels with
  | zero => cases hc
  | succ levels =>
    obtain ⟨c', hc', rfl⟩ := Option.map_eq_some_iff.mp hc
    exact Source.nullable?_of_eq_some hnull (h levels c' hc')

end Restores

theorem TypeTable.struct?_eq {t : TypeTable} (ht : t.structs = ss)
    (h : (ss.find? fun s => s.name == name) = some s) : t.struct? name = some s := by
  rw [TypeTable.struct?, ht]
  exact h

/-- Whether a record holds the canonical form of each field that is there, and no extension that is
absent. -/
structure Restored (t : TypeTable) (members : List (String × Json)) (fs : List Field)
    (r : Record) : Prop where
  there : f ∈ fs → Json.member? members f.name = some v →
    ∃ levels c, ofJson? t levels f.type v = some c ∧
      r.fields.lookup f.name = some (.ofJson c.toJson)
  absent : f ∈ fs → Json.member? members f.name = none → f.type.isExtension →
    r.fields.lookup f.name = none

theorem exists_restored (names : List String) (hs : t.struct? s = some ⟨s, fs⟩)
    (hnodup : (fs.map Field.name).Nodup) (hknown : ∀ f ∈ fs, f.name ∈ names)
    (hc : ofJson? t levels (.struct s) (.obj members) = some c) :
    ∃ r, Record.ofSource? names (.ofJson c.toJson) = some r ∧ Restored t members fs r := by
  cases levels with
  | zero => cases hc
  | succ levels =>
    have hfields : t.fieldsOf s = fs := by
      rw [TypeTable.fieldsOf, hs]
      rfl
    simp only [ofJson?, hfields] at hc
    obtain ⟨cs, hcs, rfl⟩ := Option.map_eq_some_iff.mp hc
    have hne : ∀ type v c, ofJson? t levels type v = some c → c ≠ Content.absent :=
      fun type v c hc => (hasType_of_ofJson? hc).ne_absent
    have hnames := names_of_fieldsOfJson? hcs
    have hdistinct : ((fieldsJson cs).map Prod.fst).Nodup :=
      (hnames ▸ hnodup).sublist (fieldsJson_sublist cs)
    have hall : ∀ m ∈ fieldsJson cs, m.1 ∈ names := by
      intro m hm
      have hmem := (fieldsJson_sublist cs).mem (List.mem_map_of_mem hm)
      rw [hnames] at hmem
      obtain ⟨f, hf, hname⟩ := List.mem_map.mp hmem
      exact hname ▸ hknown f hf
    refine ⟨_, Record.ofSource?_ofJson hdistinct hall, ?_, ?_⟩
    · intro f v hf hm
      obtain ⟨c, hc, hlookup⟩ := (member?_fieldsJson hne hcs hnodup hf).1 v hm
      refine ⟨levels, c, hc, ?_⟩
      rw [Record.lookup_ofJson, hlookup]
      rfl
    · intro f hf hm hext
      rw [Record.lookup_ofJson, (member?_fieldsJson hne hcs hnodup hf).2 hm hext]
      rfl

theorem Restores.record {body : Record → Option α} {names : List String}
    (hs : t.struct? s = some ⟨s, fs⟩) (hnodup : (fs.map Field.name).Nodup)
    (hknown : ∀ f ∈ fs, f.name ∈ names) (h : ∀ r, Restored t members fs r → body r = some a) :
    Restores t (.struct s) (.obj members) (fun s => Record.ofSource? names s >>= body) a := by
  intro levels c hc
  obtain ⟨r, hr, hrestored⟩ := exists_restored names hs hnodup hknown hc
  simp only [hr]
  exact h r hrestored

namespace Restored

variable {r : Record} {read? : Source → Option α}

theorem required? (h : Restored t members fs r) (name : String) (hv : Restores t type v read? a)
    (hf : ⟨name, type⟩ ∈ fs) (hm : Json.member? members name = some v) :
    r.required? name read? = some a := by
  obtain ⟨levels, c, hc, hlookup⟩ := h.there hf hm
  rw [Record.required?, hlookup]
  exact hv levels c hc

theorem optional? (h : Restored t members fs r) (name : String) (default : α)
    (hv : Restores t type v read? a) (hf : ⟨name, type⟩ ∈ fs)
    (hm : Json.member? members name = some v) :
    r.optional? name default read? = some a := by
  obtain ⟨levels, c, hc, hlookup⟩ := h.there hf hm
  rw [Record.optional?, hlookup]
  exact hv levels c hc

theorem later? (h : Restored t members fs r) (name : String) (a? : Option α) {write : α → Json}
    (hnull : read? .null = none) (hv : ∀ a, Restores t type (write a) read? a)
    (hm : Json.member? members name = a?.map write) (hf : ⟨name, .extension type⟩ ∈ fs) :
    r.optional? name none (Source.nullable? read?) = some a? := by
  cases a? with
  | none => rw [Record.optional?, h.absent hf hm rfl]
  | some a => exact h.optional? name none (.extension hnull (hv a)) hf hm

end Restored

/-- Whether a JSON value says something as a value of a type, with so many levels or more. -/
def Accepts (t : TypeTable) (depth : Nat) (type : Ty) (v : Json) : Prop :=
  ∀ levels, depth ≤ levels → ∃ c, ofJson? t levels type v = some c

namespace Accepts

theorem succ (h : ∀ n, depth ≤ n → ∃ c, ofJson? t (n + 1) type v = some c) :
    Accepts t (depth + 1) type v := by
  intro levels hlevels
  cases levels with
  | zero => cases hlevels
  | succ n => exact h n (Nat.le_of_succ_le_succ hlevels)

theorem shown {l : Leaf} (hl : l.IsValid) (hr : l.IsRepresentable) (hf : ¬l.type.IsFloat) :
    Accepts t (depth + 1) (.builtin l.type) l.toJson := by
  apply succ
  intro n _
  refine ⟨.leaf l, ?_⟩
  simp only [ofJson?, Leaf.parse_toJson hl hr hf]
  rfl

theorem name (n : Name) : Accepts t (depth + 1) (.builtin .name) (.str n.text) :=
  shown (l := .name n) trivial trivial nofun

theorem bytes (h : bs.length < 2 ^ 32) :
    Accepts t (depth + 1) (.builtin .bytes) (.str (Hex.encode bs)) :=
  shown (l := .bytes bs) h trivial nofun

theorem array (hlen : vs.length < 2 ^ 32) (h : ∀ v ∈ vs, Accepts t depth item v) :
    Accepts t (depth + 1) (.array item) (.arr vs) := by
  apply succ
  intro n hn
  have hitems : ∃ cs, vs.mapM (ofJson? t n item) = some cs := by
    apply Result.exists_mapM
    exact fun v hv => h v hv n hn
  obtain ⟨cs, hcs⟩ := hitems
  refine ⟨.array cs, ?_⟩
  simp only [ofJson?, arrayOfJson?, if_neg (Nat.not_le_of_lt hlen), hcs]
  rfl

theorem struct (hs : t.struct? s = some ⟨s, fs⟩)
    (h : ∀ f ∈ fs, ∃ v, Json.member? members f.name = some v ∧ Accepts t depth f.type v) :
    Accepts t (depth + 1) (.struct s) (.obj members) := by
  apply succ
  intro n hn
  have hfields : t.fieldsOf s = fs := by
    rw [TypeTable.fieldsOf, hs]
    rfl
  have hall : ∃ cs, fieldsOfJson? (ofJson? t n) members false fs = some cs := by
    clear hs hfields
    induction fs with
    | nil => exact ⟨[], rfl⟩
    | cons f fs ih =>
      obtain ⟨v, hm, hv⟩ := h f List.mem_cons_self
      obtain ⟨c, hc⟩ := hv n hn
      obtain ⟨cs, hcs⟩ := ih fun g hg => h g (List.mem_cons_of_mem _ hg)
      refine ⟨(f.name, c) :: cs, ?_⟩
      simp only [fieldsOfJson?, hm, hc, hcs]
      rfl
  obtain ⟨cs, hcs⟩ := hall
  refine ⟨.struct cs, ?_⟩
  simp only [ofJson?, structOfJson?, hfields, hcs]
  rfl

end Accepts
end ChainKit.Abi
