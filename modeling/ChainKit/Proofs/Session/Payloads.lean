import ChainKit.Proofs.Bytes.Hex
import ChainKit.Proofs.Name.Text
import ChainKit.Proofs.Session.Preparing

namespace ChainKit
set_option autoImplicit true

open Result (Each)

/-- Whether entries are related one by one up to one that is related to none, and are the same from
there on. -/
def StopsAt (R : α → α → Prop) (as bs : List α) : Prop :=
  ∃ front a rest done, as = front ++ a :: rest ∧ bs = done ++ a :: rest ∧ Each R front done ∧
    ¬∃ b, R a b

/-- Whether a JSON value is read again from its text. -/
def Json.ReadsBack (v : Json) : Prop := parse? (render v) = some v

/-- Whether a contract is what the schema that is stored of an account makes. -/
def AbiStore.IsContractOf (config : Abi.Config) (store : AbiStore) (account : Name)
    (l : Abi.Contract) : Prop :=
  ∃ abi d, store.find? account = some abi ∧ Abi.Document.unpack config abi = .ok d ∧
    Abi.Contract.ofDocument d = .ok l

namespace Action

/-- The type of a payload: the one that the contract has for the action, else the one of its
name. -/
def payloadType (l : Abi.Contract) (a : Action) : String :=
  (l.actionType? a.name).getD a.name.text

/-- How an action may become one with a packed payload. -/
inductive Packs (config : Abi.Config) (store : AbiStore) : Action → Action → Prop where
  | packed (h : a.isPacked = true) : Packs config store a a
  | json (hdata : a.data = .json v) (hcontract : store.IsContractOf config a.account l)
      (hbytes : l.encode config (a.payloadType l) v = .ok bs) :
      Packs config store a { a with data := .packed bs }

/-- How an action may become one with a JSON payload, if the schema of its account is stored. -/
inductive Unpacks (config : Abi.Config) (store : AbiStore) : Action → Action → Prop where
  | json (h : a.isPacked = false) : Unpacks config store a a
  | unknown (h : store.contains a.account = false) : Unpacks config store a a
  | packed (hdata : a.data = .packed bs) (hcontract : store.IsContractOf config a.account l)
      (hvalue : l.decode config (a.payloadType l) bs = .ok v) :
      Unpacks config store a { a with data := .json v }

/-- Whether the JSON of a payload is read again from its text, also if it is packed yet. -/
structure ReadsBack (config : Abi.Config) (store : AbiStore) (a : Action) : Prop where
  json : a.data = .json v → v.ReadsBack
  packed : a.data = .packed bs → store.IsContractOf config a.account l →
    l.decode config (a.payloadType l) bs = .ok v → v.ReadsBack

theorem actionOrType_text (l : Abi.Contract) (a : Action) :
    l.actionOrType a.name.text = a.payloadType l := by
  rw [Abi.Contract.actionOrType, Name.parse_text]
  rfl

end Action

namespace Draft

variable {store : AbiStore}

theorem document_eq_ok : document config store account = .ok d ↔
    ∃ abi, store.find? account = some abi ∧ Abi.Document.unpack config abi = .ok d := by
  rw [document]
  cases store.find? account with
  | none => simp
  | some abi => simp [Result.mapError_eq_ok]

theorem isContractOf_iff : store.IsContractOf config account l ↔
    ∃ d, document config store account = .ok d ∧ Abi.Context.check d = .ok l := by
  simp only [AbiStore.IsContractOf, document_eq_ok, Abi.Context.check, Result.mapError_eq_ok]
  constructor
  · rintro ⟨abi, d, hfind, hunpack, hl⟩
    exact ⟨d, ⟨abi, hfind, hunpack⟩, hl⟩
  · rintro ⟨d, ⟨abi, hfind, hunpack⟩, hl⟩
    exact ⟨abi, d, hfind, hunpack, hl⟩

theorem packedBy_eq_ok {a : Action} {d : Abi.Document} (hdata : a.data = .json v)
    (hread : v.ReadsBack) : packedBy config d a = .ok b ↔
      ∃ l bs, Abi.Context.check d = .ok l ∧ l.encode config (a.payloadType l) v = .ok bs ∧
        b = { a with data := .packed bs } := by
  have hvalue : Abi.Context.readValue a.name.text (Json.render v) = .ok v := by
    rw [Abi.Context.readValue, hread]
  simp only [packedBy, hdata, Result.bind_eq_ok, Result.mapError_eq_ok, hvalue,
    Action.actionOrType_text]
  constructor
  · rintro ⟨bs, ⟨v', hv', l, hl, hencode⟩, hb⟩
    cases hv'
    cases hb
    exact ⟨l, bs, hl, hencode, rfl⟩
  · rintro ⟨l, bs, hl, hencode, rfl⟩
    exact ⟨bs, ⟨v, rfl, l, hl, hencode⟩, rfl⟩

theorem packed_eq_ok {a : Action} (hread : a.ReadsBack config store) :
    packed config store a = .ok b ↔ a.Packs config store b := by
  cases hdata : a.data with
  | packed bs =>
    have hpacked : a.isPacked = true := by
      rw [Action.isPacked, Action.packed?, hdata]
      rfl
    rw [packed_of_isPacked hpacked]
    constructor
    · rintro ⟨⟩
      exact .packed hpacked
    · intro h
      cases h with
      | packed => rfl
      | json hjson =>
        rw [hdata] at hjson
        cases hjson
  | json v =>
    have hopen : ¬a.isPacked = true := by
      rw [Action.isPacked, Action.packed?, hdata]
      exact Bool.false_ne_true
    rw [packed, if_neg hopen, Result.bind_eq_ok]
    constructor
    · rintro ⟨d, hd, hb⟩
      obtain ⟨l, bs, hl, hencode, rfl⟩ := (packedBy_eq_ok hdata (hread.json hdata)).mp hb
      exact .json hdata (isContractOf_iff.mpr ⟨d, hd, hl⟩) hencode
    · intro h
      cases h with
      | packed hpacked => exact absurd hpacked hopen
      | json hdata' hcontract hencode =>
        rw [hdata] at hdata'
        cases hdata'
        obtain ⟨d, hd, hl⟩ := isContractOf_iff.mp hcontract
        exact ⟨d, hd, (packedBy_eq_ok hdata (hread.json hdata)).mpr ⟨_, _, hl, hencode, rfl⟩⟩

def unpackedBy (config : Abi.Config) (d : Abi.Document) (a : Action) : Except ClientError Action :=
  match a.data with
  | .json _ => .ok a
  | .packed bs => do
    let v ← (do
      let bs ← Abi.Context.readHex a.name.text (Hex.encode bs)
      let l ← Abi.Context.check d
      l.decode config (l.actionOrType a.name.text) bs : Except Abi.Error Json).mapError .abi
    match Json.parse? (Json.render v) with
    | some v => return { a with data := .json v }
    | none => throw .malformedJson

def unpacked (config : Abi.Config) (store : AbiStore) (a : Action) : Except ClientError Action :=
  if a.isPacked && store.contains a.account then do
    unpackedBy config (← document config store a.account) a
  else .ok a

theorem unpackedBy_eq_ok {a : Action} {d : Abi.Document} (hdata : a.data = .packed bs)
    (hread : ∀ l v, Abi.Context.check d = .ok l → l.decode config (a.payloadType l) bs = .ok v →
      v.ReadsBack) : unpackedBy config d a = .ok b ↔
      ∃ l v, Abi.Context.check d = .ok l ∧ l.decode config (a.payloadType l) bs = .ok v ∧
        b = { a with data := .json v } := by
  have hhex : Abi.Context.readHex a.name.text (Hex.encode bs) = .ok bs := by
    rw [Abi.Context.readHex, Hex.decode_encode]
    rfl
  simp only [unpackedBy, hdata, Result.bind_eq_ok, Result.mapError_eq_ok, hhex,
    Action.actionOrType_text]
  constructor
  · rintro ⟨v, ⟨bs', hbs', l, hl, hdecode⟩, hb⟩
    cases hbs'
    rw [hread l v hl hdecode] at hb
    cases hb
    exact ⟨l, v, hl, hdecode, rfl⟩
  · rintro ⟨l, v, hl, hdecode, rfl⟩
    refine ⟨v, ⟨bs, rfl, l, hl, hdecode⟩, ?_⟩
    rw [hread l v hl hdecode]
    rfl

theorem unpacked_eq_ok {a : Action} (hread : a.ReadsBack config store) :
    unpacked config store a = .ok b ↔ a.Unpacks config store b := by
  cases hdata : a.data with
  | json v =>
    have hopen : a.isPacked = false := by
      rw [Action.isPacked, Action.packed?, hdata]
      rfl
    rw [unpacked, hopen, Bool.false_and, if_neg Bool.false_ne_true]
    constructor
    · rintro ⟨⟩
      exact .json hopen
    · intro h
      cases h with
      | json => rfl
      | unknown => rfl
      | packed hbytes =>
        rw [hdata] at hbytes
        cases hbytes
  | packed bs =>
    have hpacked : a.isPacked = true := by
      rw [Action.isPacked, Action.packed?, hdata]
      rfl
    rw [unpacked, hpacked, Bool.true_and]
    cases hknown : store.contains a.account with
    | false =>
      rw [if_neg Bool.false_ne_true]
      constructor
      · rintro ⟨⟩
        exact .unknown hknown
      · intro h
        cases h with
        | json => rfl
        | unknown => rfl
        | packed hbytes hcontract =>
          obtain ⟨abi, d, hfind, -⟩ := hcontract
          rw [AbiStore.contains, SortedMap.contains] at hknown
          rw [AbiStore.find?] at hfind
          rw [hfind] at hknown
          cases hknown
    | true =>
      rw [if_pos rfl, Result.bind_eq_ok]
      have hunpacked {d : Abi.Document} (hd : document config store a.account = .ok d) :
          unpackedBy config d a = .ok b ↔ ∃ l v, Abi.Context.check d = .ok l ∧
            l.decode config (a.payloadType l) bs = .ok v ∧ b = { a with data := .json v } := by
        apply unpackedBy_eq_ok hdata
        intro l v hl hdecode
        exact hread.packed hdata (isContractOf_iff.mpr ⟨d, hd, hl⟩) hdecode
      constructor
      · rintro ⟨d, hd, hb⟩
        obtain ⟨l, v, hl, hdecode, rfl⟩ := (hunpacked hd).mp hb
        exact .packed hdata (isContractOf_iff.mpr ⟨d, hd, hl⟩) hdecode
      · intro h
        cases h with
        | json hopen => rw [hpacked] at hopen; cases hopen
        | unknown hnone => rw [hknown] at hnone; cases hnone
        | packed hbytes hcontract hdecode =>
          rw [hdata] at hbytes
          cases hbytes
          obtain ⟨d, hd, hl⟩ := isContractOf_iff.mp hcontract
          exact ⟨d, hd, (hunpacked hd).mpr ⟨_, _, hl, hdecode, rfl⟩⟩

variable {f : Action → Except ClientError Action}

theorem packEach_eq_ok (h : (packEach f as).2 = .ok ()) :
    Each (fun a b => f a = .ok b) as (packEach f as).1 := by
  induction as with
  | nil => exact .nil
  | cons a rest ih =>
    cases ha : f a with
    | error e =>
      simp only [packEach, ha] at h
      cases h
    | ok b =>
      simp only [packEach, ha] at h ⊢
      exact .cons ha (ih h)

theorem packEach_eq_error (h : (packEach f as).2 = .error e) : ∃ front a rest done,
    as = front ++ a :: rest ∧ (packEach f as).1 = done ++ a :: rest ∧
      Each (fun a b => f a = .ok b) front done ∧ f a = .error e := by
  induction as with
  | nil => cases h
  | cons a rest ih =>
    cases ha : f a with
    | error e' =>
      simp only [packEach, ha] at h ⊢
      cases h
      exact ⟨[], a, rest, [], rfl, rfl, .nil, ha⟩
    | ok b =>
      simp only [packEach, ha] at h ⊢
      obtain ⟨front, a', rest', done, hsplit, hleft, hdone, hfails⟩ := ih h
      refine ⟨a :: front, a', rest', b :: done, ?_, ?_, .cons ha hdone, hfails⟩
      · rw [hsplit, List.cons_append]
      · rw [hleft, List.cons_append]

theorem each_of_packEach {R : Action → Action → Prop} (hf : ∀ a ∈ as, ∀ b, f a = .ok b ↔ R a b)
    (h : (packEach f as).2 = .ok ()) : Each R as (packEach f as).1 :=
  (packEach_eq_ok h).mono_mem fun a ha b => (hf a ha b).mp

theorem stopsAt_of_packEach {R : Action → Action → Prop}
    (hf : ∀ a ∈ as, ∀ b, f a = .ok b ↔ R a b) (h : (packEach f as).2 = .error e) :
    StopsAt R as (packEach f as).1 := by
  obtain ⟨front, a, rest, done, rfl, hleft, hdone, hfails⟩ := packEach_eq_error h
  refine ⟨front, a, rest, done, rfl, hleft, ?_, ?_⟩
  · exact hdone.mono_mem fun a' ha' b => (hf a' (List.mem_append_left _ ha') b).mp
  · rintro ⟨b, hb⟩
    have hok := (hf a (List.mem_append_right _ List.mem_cons_self) b).mpr hb
    rw [hfails] at hok
    cases hok

theorem mapError_abi_ne (x : Except Abi.Error α) (accounts : List Name) :
    x.mapError ClientError.abi ≠ .error (.missingAbis accounts) := by
  cases x <;> nofun

theorem bind_ne_error {x : Except ε α} {g : α → Except ε β} (hx : x ≠ .error e)
    (hg : ∀ a, g a ≠ .error e) : (x >>= g) ≠ .error e := by
  cases x with
  | error e' => exact fun h => hx (congrArg Except.error (Except.error.inj h))
  | ok a => exact hg a

/-- No payload fails for the lack of a schema that is stored. -/
theorem packed_ne_missingAbis {a : Action}
    (h : a.isPacked = true ∨ store.contains a.account = true) (accounts : List Name) :
    packed config store a ≠ .error (.missingAbis accounts) := by
  rcases h with hpacked | hstored
  · rw [packed_of_isPacked hpacked]
    simp
  · have hdocument : document config store a.account ≠ .error (.missingAbis accounts) := by
      obtain ⟨abi, hfind⟩ := Option.isSome_iff_exists.mp hstored
      rw [document, AbiStore.find?, hfind]
      exact mapError_abi_ne _ accounts
    have hpack (d : Abi.Document) : packedBy config d a ≠ .error (.missingAbis accounts) := by
      rw [packedBy]
      split
      · simp
      · exact bind_ne_error (mapError_abi_ne _ accounts) fun _ h => by cases h
    rw [packed]
    split
    · simp
    · exact bind_ne_error hdocument hpack

def unpackActions (config : Abi.Config) : Op Unit := fun d =>
  ending (packEach (unpacked config d.store) d.transaction.allActions).2
    (d.withTransaction (d.transaction.withAllActions
      (packEach (unpacked config d.store) d.transaction.allActions).1))

end Draft

namespace Session

theorem answers_deserialize (config : Abi.Config) (contract : Name) (name hex : String)
    (d : Abi.Document) : Answers config (Abi.Context.deserialize contract name hex d) (do
      let bs ← Abi.Context.readHex name hex
      let l ← Abi.Context.check d
      l.decode config (l.actionOrType name) bs) := by
  apply answers_recorded
  intro c hc
  have hconvert := hc.sound.settle_convert (Abi.Context.parseHex_apply name hex)
    (f := fun bs l => Abi.Context.decodeWith l (l.actionOrType name) bs)
    (g := fun bs l => l.decode config (l.actionOrType name) bs) (by
      intro bs l c' hc'
      rw [Abi.Context.decodeWith_apply, hc', hc.config_eq]) contract d
  refine ⟨_, ⟨?_, hc.sound.put contract _⟩, hconvert⟩
  rw [Abi.Context.put_config, hc.config_eq]

theorem answers_unpack (config : Abi.Config) (d : Abi.Document) (a : Action) :
    Answers config (a.unpack d) (Draft.unpackedBy config d a) := by
  unfold Action.unpack Draft.unpackedBy
  cases a.data with
  | json v => exact .pure a
  | packed bs =>
    apply (answers_deserialize config a.account a.name.text (Hex.encode bs) d).inContext.bind
    intro v
    cases Json.parse? (Json.render v) with
    | none => exact .throw _
    | some v => exact .pure _

theorem answers_unpacked (config : Abi.Config) (store : AbiStore) (a : Action) :
    Answers config (if a.isPacked && store.contains a.account then do
        a.unpack (← store.document a.account) else return a)
      (Draft.unpacked config store a) := by
  unfold Draft.unpacked
  split
  · exact (answers_document config store a.account).bind fun d => answers_unpack config d a
  · exact .pure a

variable {config : Abi.Config} {k : Knowledge} {s : Session}

theorem performs_unpackActions :
    Performs config k unpackActions (Draft.unpackActions config) := by
  intro s hs
  rw [unpackActions, get_bind]
  exact performs_updateActions (answers_unpacked config s.store) s hs

theorem draft_of_ok {op : Op α} {p : EStateM ClientError Draft α} (h : Performs config k op p)
    (hs : IsAt config k s) (hop : op s = .ok a left) : p s.draft = .ok a left.draft := by
  rw [← (h s hs).1, hop]
  rfl

theorem draft_of_error {op : Op α} {p : EStateM ClientError Draft α} (h : Performs config k op p)
    (hs : IsAt config k s) (hop : op s = .error e left) : p s.draft = .error e left.draft := by
  rw [← (h s hs).1, hop]
  rfl

def withActions (s : Session) (as : List Action) : Draft :=
  ⟨s.store, s.transaction.withAllActions as⟩

theorem packActions_ok (hs : IsAt config k s)
    (hread : ∀ a ∈ s.transaction.allActions, a.ReadsBack config s.store)
    (h : packActions s = .ok () left) : ∃ as, left.draft = s.withActions as ∧
      Each (Action.Packs config s.store) s.transaction.allActions as := by
  have hdraft := draft_of_ok performs_packActions hs h
  by_cases hsupplied : Draft.IsSupplied s.draft
  · rw [Draft.packActions_of_isSupplied hsupplied] at hdraft
    obtain ⟨hok, hleft⟩ := ending_eq_ok.mp hdraft
    exact ⟨_, hleft, Draft.each_of_packEach (fun a ha b => Draft.packed_eq_ok (hread a ha)) hok⟩
  · rw [Draft.packActions_of_not_isSupplied hsupplied] at hdraft
    cases hdraft

theorem packActions_error (hs : IsAt config k s)
    (hread : ∀ a ∈ s.transaction.allActions, a.ReadsBack config s.store)
    (h : packActions s = .error e left) :
    (e = .missingAbis s.missingAbis ∧ s.missingAbis ≠ [] ∧ left.draft = s.draft) ∨
    (∀ accounts, e ≠ .missingAbis accounts) ∧ ∃ as, left.draft = s.withActions as ∧
      StopsAt (Action.Packs config s.store) s.transaction.allActions as := by
  have hdraft := draft_of_error performs_packActions hs h
  by_cases hsupplied : Draft.IsSupplied s.draft
  · rw [Draft.packActions_of_isSupplied hsupplied] at hdraft
    obtain ⟨hfails, hleft⟩ := ending_eq_error.mp hdraft
    refine .inr ⟨?_, _, hleft,
      Draft.stopsAt_of_packEach (fun a ha b => Draft.packed_eq_ok (hread a ha)) hfails⟩
    rintro accounts rfl
    obtain ⟨front, a, rest, done, hsplit, -, -, ha⟩ := Draft.packEach_eq_error hfails
    have hmem : a ∈ s.draft.transaction.allActions := by
      rw [hsplit]
      exact List.mem_append_right _ List.mem_cons_self
    exact Draft.packed_ne_missingAbis (Draft.isSupplied_iff.mp hsupplied a hmem) accounts ha
  · rw [Draft.packActions_of_not_isSupplied hsupplied] at hdraft
    rw [EStateM.Result.error.injEq] at hdraft
    exact .inl ⟨hdraft.1.symm, mt AbiStore.missing_eq_nil.mp hsupplied, hdraft.2.symm⟩

theorem unpackActions_ok (hs : IsAt config k s)
    (hread : ∀ a ∈ s.transaction.allActions, a.ReadsBack config s.store)
    (h : unpackActions s = .ok () left) : ∃ as, left.draft = s.withActions as ∧
      Each (Action.Unpacks config s.store) s.transaction.allActions as := by
  have hdraft := draft_of_ok performs_unpackActions hs h
  rw [Draft.unpackActions] at hdraft
  obtain ⟨hok, hleft⟩ := ending_eq_ok.mp hdraft
  exact ⟨_, hleft, Draft.each_of_packEach (fun a ha b => Draft.unpacked_eq_ok (hread a ha)) hok⟩

theorem unpackActions_error (hs : IsAt config k s)
    (hread : ∀ a ∈ s.transaction.allActions, a.ReadsBack config s.store)
    (h : unpackActions s = .error e left) : ∃ as, left.draft = s.withActions as ∧
      StopsAt (Action.Unpacks config s.store) s.transaction.allActions as := by
  have hdraft := draft_of_error performs_unpackActions hs h
  rw [Draft.unpackActions] at hdraft
  obtain ⟨hfails, hleft⟩ := ending_eq_error.mp hdraft
  exact ⟨_, hleft,
    Draft.stopsAt_of_packEach (fun a ha b => Draft.unpacked_eq_ok (hread a ha)) hfails⟩

/-- Packing the payloads of a transaction packs them all; or it changes nothing, if schemas are
missing; or it stops at a payload that does not pack, with those before it packed and the others as
they were. So does unpacking, which leaves those alone whose schemas are missing. The payloads are
read again from their text. -/
theorem payloads_in_order (config : Abi.Config) (os : List Abi.Context.Operation) (node : Node)
    (store : AbiStore) (transaction : Transaction)
    (hread : ∀ a ∈ transaction.allActions, a.ReadsBack config store) :
    let context := (Abi.Context.run Abi.Context.step (.new config) os).2
    let s : Session := ⟨context, node, store, transaction⟩
    (∀ left, packActions s = .ok () left → ∃ as, left.draft = s.withActions as ∧
      Each (Action.Packs config store) transaction.allActions as) ∧
    (∀ e left, packActions s = .error e left →
      (e = .missingAbis s.missingAbis ∧ s.missingAbis ≠ [] ∧ left.draft = s.draft) ∨
      (∀ accounts, e ≠ .missingAbis accounts) ∧ ∃ as, left.draft = s.withActions as ∧
        StopsAt (Action.Packs config store) transaction.allActions as) ∧
    (∀ left, unpackActions s = .ok () left → ∃ as, left.draft = s.withActions as ∧
      Each (Action.Unpacks config store) transaction.allActions as) ∧
    (∀ e left, unpackActions s = .error e left → ∃ as, left.draft = s.withActions as ∧
      StopsAt (Action.Unpacks config store) transaction.allActions as) := by
  intro context s
  have hreached := Abi.Context.shows_run config os
  have hs : IsAt config node.knowledge s := ⟨⟨hreached.config_eq, hreached.sound⟩, rfl⟩
  exact ⟨fun _ => packActions_ok hs hread, fun _ _ => packActions_error hs hread,
    fun _ => unpackActions_ok hs hread, fun _ _ => unpackActions_error hs hread⟩

def stoppingSession : Session where
  context := .new {}
  node := openSession.node
  store := ⟨SortedMap.empty.insert ⟨1⟩ Abi.Context.samplePacked⟩
  transaction := {
    contextFreeActions := [⟨⟨9⟩, ⟨2⟩, [], .packed [7]⟩]
    actions := [⟨⟨1⟩, ⟨0x3d29100000000000⟩, [], .json (.bool true)⟩,
      ⟨⟨1⟩, ⟨0xc66ee9b000000000⟩, [], .json .null⟩,
      ⟨⟨1⟩, ⟨0x3d29100000000000⟩, [], .json (.bool false)⟩] }

theorem readsBack_stoppingSession : ∀ a ∈ stoppingSession.transaction.allActions,
    a.ReadsBack {} stoppingSession.store := by
  have hopen (account name : Name) (v : Json) (hv : v.ReadsBack) :
      (⟨account, name, [], .json v⟩ : Action).ReadsBack {} stoppingSession.store :=
    ⟨by rintro w ⟨⟩; exact hv, nofun⟩
  intro a ha
  rcases List.mem_cons.mp ha with rfl | ha
  · refine ⟨nofun, ?_⟩
    rintro bs l v - ⟨abi, d, hfind, -⟩
    cases hfind
  rcases List.mem_cons.mp ha with rfl | ha
  · exact hopen _ _ _ rfl
  rcases List.mem_cons.mp ha with rfl | ha
  · exact hopen _ _ _ rfl
  rcases List.mem_singleton.mp ha with rfl
  exact hopen _ _ _ rfl

theorem payloads_in_order_stopped : ∃ e left, packActions stoppingSession = .error e left ∧
    StopsAt (Action.Packs {} stoppingSession.store) stoppingSession.transaction.allActions
      left.transaction.allActions ∧
    left.transaction.allActions.map Action.packed? = [some [7], some [1], none, none] := by
  have hfails : (match packActions stoppingSession with
    | .ok _ _ => none
    | .error _ left => some (left.transaction.allActions.map Action.packed?)) =
      some [some [7], some [1], none, none] := by decide +kernel
  cases hpack : packActions stoppingSession with
  | ok u left =>
    rw [hpack] at hfails
    cases hfails
  | error e left =>
    rw [hpack] at hfails
    have hmissing : stoppingSession.missingAbis = [] := by decide +kernel
    obtain ⟨-, herror, -⟩ := payloads_in_order {} [] openSession.node stoppingSession.store
      stoppingSession.transaction readsBack_stoppingSession
    rcases herror e left hpack with ⟨-, hnot, -⟩ | ⟨-, as, hleft, hstops⟩
    · exact absurd hmissing hnot
    · refine ⟨e, left, rfl, ?_, Option.some.inj hfails⟩
      have htransaction : left.transaction = stoppingSession.transaction.withAllActions as :=
        congrArg Draft.transaction hleft
      rwa [htransaction, Transaction.allActions_withAllActions]

end Session
end ChainKit
