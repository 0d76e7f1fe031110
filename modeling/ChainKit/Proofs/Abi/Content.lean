import ChainKit.Abi.Config.Basic
import ChainKit.Abi.TypeTable
import ChainKit.Proofs.Abi.Leaf.Json

namespace ChainKit.Abi

namespace TypeTable

variable (t : TypeTable)

def fieldsOf (name : String) : List Field := ((t.struct? name).getD ⟨name, []⟩).fields

def membersOf (name : String) : List Member := ((t.variant? name).getD ⟨name, []⟩).members

end TypeTable

/-- What a value of a type says. An optional value is `null` or `given`, an extension is `absent` or
`present`. -/
inductive Content where
  | leaf (value : Leaf)
  | struct (fields : List (String × Content))
  | variant (tag : Nat) (member : String) (value : Content)
  | array (items : List Content)
  | null
  | given (value : Content)
  | absent
  | present (value : Content)

namespace Content
set_option autoImplicit true

mutual

def bytes : Content → Bytes
  | leaf l => l.toBytes
  | struct fs => fieldsBytes fs
  | variant tag _ c => Wire.varuint tag ++ c.bytes
  | array cs => Wire.varuint cs.length ++ itemsBytes cs
  | null => [0]
  | given c => 1 :: c.bytes
  | absent => []
  | present c => c.bytes

def fieldsBytes : List (String × Content) → Bytes
  | [] => []
  | (_, c) :: rest => c.bytes ++ fieldsBytes rest

def itemsBytes : List Content → Bytes
  | [] => []
  | c :: rest => c.bytes ++ itemsBytes rest

end

mutual

def toJson : Content → Json
  | leaf l => l.toJson
  | struct fs => .obj (fieldsJson fs)
  | variant _ member c => .arr [.str member, c.toJson]
  | array cs => .arr (itemsJson cs)
  | null => .null
  | given c => c.toJson
  | absent => .null
  | present c => c.toJson

/-- The members of an object, without absent extensions. -/
def fieldsJson : List (String × Content) → List (String × Json)
  | [] => []
  | (_, absent) :: rest => fieldsJson rest
  | (name, c) :: rest => (name, c.toJson) :: fieldsJson rest

def itemsJson : List Content → List Json
  | [] => []
  | c :: rest => c.toJson :: itemsJson rest

end

/-- The contents of the fields of a struct. A field that is not there is an optional value without
value or an absent extension, and behind an absent extension all are absent. -/
def fieldsOfJson? (value? : Ty → Json → Option Content) (members : List (String × Json)) :
    (behindAbsent : Bool) → List Field → Option (List (String × Content))
  | _, [] => some []
  | behindAbsent, f :: rest =>
    match Json.member? members f.name, f.type, behindAbsent with
    | some v, type, false => do
      let c ← value? type v
      return (f.name, c) :: (← fieldsOfJson? value? members false rest)
    | none, .extension _, _ => do
      return (f.name, absent) :: (← fieldsOfJson? value? members true rest)
    | none, .optional _, false => do
      return (f.name, null) :: (← fieldsOfJson? value? members false rest)
    | _, _, _ => none

def structOfJson? (value? : Ty → Json → Option Content) (fields : List Field) :
    Json → Option Content
  | .obj members => (fieldsOfJson? value? members false fields).map struct
  | _ => none

/-- A variant names its member; the first member with the name is meant. -/
def variantOfJson? (value? : Ty → Json → Option Content) (members : List Member) :
    Json → Option Content
  | .arr [.str name, v] => do
    let tag ← members.findIdx? fun m => m.name == name
    let m ← members[tag]?
    if 2 ^ 32 ≤ tag then none
    else return variant tag name (← value? m.type v)
  | _ => none

def arrayOfJson? (item? : Json → Option Content) : Json → Option Content
  | .arr vs => if 2 ^ 32 ≤ vs.length then none else (vs.mapM item?).map array
  | _ => none

def optionalOfJson? (inner? : Json → Option Content) : Json → Option Content
  | .null => some null
  | v => (inner? v).map given

/-- What a JSON value says as a value of a type. -/
def ofJson? (t : TypeTable) : (levels : Nat) → Ty → Json → Option Content
  | 0, _, _ => none
  | levels + 1, type, v =>
    match type with
    | .builtin b => (Leaf.parse b v).toOption.map leaf
    | .struct name => structOfJson? (ofJson? t levels) (t.fieldsOf name) v
    | .variant name => variantOfJson? (ofJson? t levels) (t.membersOf name) v
    | .array item => arrayOfJson? (ofJson? t levels item) v
    | .optional inner => optionalOfJson? (ofJson? t levels inner) v
    | .extension inner => (ofJson? t levels inner v).map present

/-- Whether fields have their types, one after the other; from some field on, all may be absent
extensions. -/
inductive FieldsHave (p : Ty → Content → Prop) : List Field → List (String × Content) → Prop where
  | done : FieldsHave p [] []
  | field {f : Field} {c : Content} {fs : List Field} {cs : List (String × Content)} :
      p f.type c → FieldsHave p fs cs → FieldsHave p (f :: fs) ((f.name, c) :: cs)
  | absent : (∀ f ∈ fs, f.type.isExtension) →
      FieldsHave p fs (fs.map fun f => (f.name, Content.absent))

/-- Whether a content is one of a type, with at most `levels` values inside each other. -/
def HasType (t : TypeTable) : (levels : Nat) → Ty → Content → Prop
  | _ + 1, .builtin b, leaf l => l.type = b ∧ l.IsValid
  | levels + 1, .struct name, struct fs => FieldsHave (HasType t levels) (t.fieldsOf name) fs
  | levels + 1, .variant name, variant tag member c =>
    tag < 2 ^ 32 ∧ (t.membersOf name).findIdx? (fun m => m.name == member) = some tag ∧
      ∃ m, (t.membersOf name)[tag]? = some m ∧ HasType t levels m.type c
  | levels + 1, .array item, array cs => cs.length < 2 ^ 32 ∧ ∀ c ∈ cs, HasType t levels item c
  | _ + 1, .optional _, null => True
  | levels + 1, .optional inner, given c => HasType t levels inner c
  | levels + 1, .extension inner, present c => HasType t levels inner c
  | _, _, _ => False

mutual

/-- Whether a condition holds of a content and of each of its parts. It may look at the bytes behind
the part, of which `after` are those behind the content. -/
def Everywhere (P : Bytes → Content → Prop) (after : Bytes) : Content → Prop
  | leaf l => P after (leaf l)
  | struct fs => P after (struct fs) ∧ FieldsEverywhere P after fs
  | variant tag member c => P after (variant tag member c) ∧ c.Everywhere P after
  | array cs => P after (array cs) ∧ ItemsEverywhere P after cs
  | null => P after null
  | given c => P after (given c) ∧ c.Everywhere P after
  | absent => P after absent
  | present c => P after (present c) ∧ c.Everywhere P after

def FieldsEverywhere (P : Bytes → Content → Prop) (after : Bytes) :
    List (String × Content) → Prop
  | [] => True
  | (_, c) :: rest => c.Everywhere P (fieldsBytes rest ++ after) ∧ FieldsEverywhere P after rest

def ItemsEverywhere (P : Bytes → Content → Prop) (after : Bytes) : List Content → Prop
  | [] => True
  | c :: rest => c.Everywhere P (itemsBytes rest ++ after) ∧ ItemsEverywhere P after rest

end

mutual

theorem Everywhere.mono {P Q : Bytes → Content → Prop} (hpq : ∀ after c, P after c → Q after c) :
    {c : Content} → c.Everywhere P after → c.Everywhere Q after
  | leaf _, h => hpq _ _ h
  | struct _, h => ⟨hpq _ _ h.1, FieldsEverywhere.mono hpq h.2⟩
  | variant _ _ _, h => ⟨hpq _ _ h.1, h.2.mono hpq⟩
  | array _, h => ⟨hpq _ _ h.1, ItemsEverywhere.mono hpq h.2⟩
  | null, h => hpq _ _ h
  | given _, h => ⟨hpq _ _ h.1, h.2.mono hpq⟩
  | absent, h => hpq _ _ h
  | present _, h => ⟨hpq _ _ h.1, h.2.mono hpq⟩

theorem FieldsEverywhere.mono {P Q : Bytes → Content → Prop}
    (hpq : ∀ after c, P after c → Q after c) :
    {cs : List (String × Content)} → FieldsEverywhere P after cs → FieldsEverywhere Q after cs
  | [], _ => trivial
  | (_, _) :: _, h => ⟨h.1.mono hpq, FieldsEverywhere.mono hpq h.2⟩

theorem ItemsEverywhere.mono {P Q : Bytes → Content → Prop}
    (hpq : ∀ after c, P after c → Q after c) :
    {cs : List Content} → ItemsEverywhere P after cs → ItemsEverywhere Q after cs
  | [], _ => trivial
  | _ :: _, h => ⟨h.1.mono hpq, ItemsEverywhere.mono hpq h.2⟩

end

theorem FieldsHave.mono {p q : Ty → Content → Prop} (hpq : ∀ type c, p type c → q type c)
    (h : FieldsHave p fs cs) : FieldsHave q fs cs := by
  induction h with
  | done => exact .done
  | field hc _ ih => exact .field (hpq _ _ hc) ih
  | absent hf => exact .absent hf

theorem FieldsHave.everywhere {P : Bytes → Content → Prop} (h : FieldsHave p fs cs)
    (hp : ∀ type c after, p type c → c.Everywhere P after)
    (habsent : ∀ after, P after Content.absent) (after : Bytes) : FieldsEverywhere P after cs := by
  induction h with
  | done => trivial
  | field hc _ ih => exact ⟨hp _ _ _ hc, ih⟩
  | @absent fs hf =>
    clear hf
    induction fs with
    | nil => trivial
    | cons f fs ih => exact ⟨habsent _, ih⟩

theorem itemsEverywhere {P : Bytes → Content → Prop} (h : ∀ c ∈ cs, ∀ after, c.Everywhere P after)
    (after : Bytes) : ItemsEverywhere P after cs := by
  induction cs with
  | nil => trivial
  | cons c cs ih =>
    exact ⟨h c List.mem_cons_self _, ih fun d hd => h d (List.mem_cons_of_mem _ hd)⟩

mutual

def decideEverywhere {P : Bytes → Content → Prop} [∀ after c, Decidable (P after c)]
    (after : Bytes) : (c : Content) → Decidable (c.Everywhere P after)
  | leaf l => inferInstanceAs (Decidable (P after (leaf l)))
  | struct fs => @instDecidableAnd _ _ _ (decideFields after fs)
  | variant _ _ c => @instDecidableAnd _ _ _ (decideEverywhere after c)
  | array cs => @instDecidableAnd _ _ _ (decideItems after cs)
  | null => inferInstanceAs (Decidable (P after null))
  | given c => @instDecidableAnd _ _ _ (decideEverywhere after c)
  | absent => inferInstanceAs (Decidable (P after absent))
  | present c => @instDecidableAnd _ _ _ (decideEverywhere after c)

def decideFields {P : Bytes → Content → Prop} [∀ after c, Decidable (P after c)]
    (after : Bytes) : (cs : List (String × Content)) → Decidable (FieldsEverywhere P after cs)
  | [] => .isTrue trivial
  | (_, c) :: rest =>
    @instDecidableAnd _ _ (decideEverywhere (fieldsBytes rest ++ after) c) (decideFields after rest)

def decideItems {P : Bytes → Content → Prop} [∀ after c, Decidable (P after c)]
    (after : Bytes) : (cs : List Content) → Decidable (ItemsEverywhere P after cs)
  | [] => .isTrue trivial
  | c :: rest =>
    @instDecidableAnd _ _ (decideEverywhere (itemsBytes rest ++ after) c) (decideItems after rest)

end

instance {P : Bytes → Content → Prop} [∀ after c, Decidable (P after c)] (after : Bytes)
    (c : Content) : Decidable (c.Everywhere P after) := decideEverywhere after c

/-- Whether an extension is absent exactly where the data ends. -/
def ShowsExtension (after : Bytes) : Content → Prop
  | absent => after = []
  | present c => c.bytes ++ after ≠ []
  | _ => True

instance (after : Bytes) : DecidablePred (ShowsExtension after)
  | absent => inferInstanceAs (Decidable (after = []))
  | present c => inferInstanceAs (Decidable (c.bytes ++ after ≠ []))
  | leaf _ | struct _ | variant _ _ _ | array _ | null | given _ => .isTrue trivial

/-- Whether an array is no longer than the limit or than the bytes behind its length. -/
def FitsArray (limit : Nat) (after : Bytes) : Content → Prop
  | array cs => cs.length ≤ limit ∨ cs.length ≤ (itemsBytes cs ++ after).length
  | _ => True

instance (limit : Nat) (after : Bytes) : DecidablePred (FitsArray limit after)
  | array cs =>
    inferInstanceAs (Decidable (cs.length ≤ limit ∨ cs.length ≤ (itemsBytes cs ++ after).length))
  | leaf _ | struct _ | variant _ _ _ | null | given _ | absent | present _ => .isTrue trivial

/-- Whether a value of a built-in type is no time out of range. -/
def ShowsTime : Content → Prop
  | leaf l => l.IsRepresentable
  | _ => True

instance : DecidablePred ShowsTime
  | leaf l => inferInstanceAs (Decidable l.IsRepresentable)
  | struct _ | variant _ _ _ | array _ | null | given _ | absent | present _ => .isTrue trivial

/-- Whether the wire form of a part is told from what could stand in its place. -/
structure IsReadable (limit : Nat) (after : Bytes) (c : Content) : Prop where
  extension : c.ShowsExtension after
  array : c.FitsArray limit after
  time : c.ShowsTime

instance (limit : Nat) (after : Bytes) (c : Content) : Decidable (c.IsReadable limit after) :=
  decidable_of_iff (c.ShowsExtension after ∧ c.FitsArray limit after ∧ c.ShowsTime)
    ⟨fun h => ⟨h.1, h.2.1, h.2.2⟩, fun h => ⟨h.extension, h.array, h.time⟩⟩

end Content
end ChainKit.Abi
