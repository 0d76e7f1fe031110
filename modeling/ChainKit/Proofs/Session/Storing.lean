import ChainKit.Proofs.Session.Asking

namespace ChainKit
set_option autoImplicit true

namespace AbiStore

variable {store : AbiStore}

/-- Whether each packed schema that is stored unpacks. -/
def IsReadable (config : Abi.Config) (store : AbiStore) : Prop :=
  ∀ account abi, store.find? account = some abi → ∃ d, Abi.Document.unpack config abi = .ok d

theorem isReadable_empty (config : Abi.Config) : empty.IsReadable config := nofun

theorem IsReadable.insert (h : store.IsReadable config)
    (hunpack : Abi.Document.unpack config abi = .ok d) (account : Name) :
    IsReadable config ⟨store.entries.insert account abi⟩ := by
  intro account' abi' hfind
  rw [find?, SortedMap.find?_insert] at hfind
  split at hfind
  · cases hfind
    exact ⟨d, hunpack⟩
  · exact h account' abi' hfind

theorem document_ok {c : Abi.Context} (hfind : store.find? account = some abi)
    (hunpack : Abi.Document.unpack c.config abi = .ok d) : store.document account c = .ok d c := by
  rw [document, hfind]
  exact Transaction.inContext_eq_ok.mpr (Abi.Context.deserializeAbi_eq_ok.mpr ⟨hunpack, rfl⟩)

theorem IsReadable.document {c : Abi.Context} (h : store.IsReadable c.config)
    (hcontains : store.contains account = true) :
    ∃ d, store.document account c = .ok d c ∧ store.json account c = .ok d.text c := by
  obtain ⟨abi, hfind⟩ := Option.isSome_iff_exists.mp hcontains
  obtain ⟨d, hunpack⟩ := h account abi hfind
  have hdocument := document_ok hfind hunpack
  exact ⟨d, hdocument, Wire.bind_ok hdocument⟩

end AbiStore

namespace Session

variable {s : Session}

structure IsReadable (config : Abi.Config) (s : Session) : Prop where
  config_eq : s.context.config = config
  store : s.store.IsReadable config

/-- A schema that is added for an account: packed, packed in hexadecimal text, or in JSON text. -/
inductive Addition where
  | packed (account : Name) (abi : Bytes)
  | hex (account : Name) (text : String)
  | json (account : Name) (text : String)

namespace Addition

def account : Addition → Name
  | packed account _ => account
  | hex account _ => account
  | json account _ => account

def perform : Addition → Op Unit
  | packed account abi => addAbi account abi
  | hex account text => addAbiHex account text
  | json account text => addAbiJson account text

/-- The packed schema, which may not unpack. One in JSON text is packed first. -/
def given (config : Abi.Config) : Addition → Except ClientError Bytes
  | packed _ abi => .ok abi
  | hex _ text => (Hex.decode text).mapError .hex
  | json _ text =>
    match Abi.Document.parse? text with
    | none => .error (.abi (.schema .malformedText))
    | some d => (d.pack config).mapError .abi

/-- How an addition ends. What is given is stored if it unpacks, and nothing is stored else. -/
inductive Ends (a : Addition) (s : Session) : EStateM.Result ClientError Session Unit → Prop where
  | stored (hgiven : a.given s.context.config = .ok abi)
      (hunpack : Abi.Document.unpack s.context.config abi = .ok d) :
      Ends a s (.ok () { s with store := ⟨s.store.entries.insert a.account abi⟩ })
  | notGiven (hgiven : a.given s.context.config = .error e)
      (hconfig : c.config = s.context.config) : Ends a s (.error e { s with context := c })
  | malformed (hgiven : a.given s.context.config = .ok abi)
      (hunpack : Abi.Document.unpack s.context.config abi = .error e)
      (hconfig : c.config = s.context.config) : Ends a s (.error (.abi e) { s with context := c })

theorem updateStore_ok {op : AbiStore → Action.Op AbiStore}
    (h : op s.store s.context = .ok store' c) :
    updateStore op s = .ok () { s with context := c, store := store' } := by
  have hop : inContext (op s.store) s = .ok store' { s with context := c } := by
    simp only [inContext, h]
  rw [updateStore, get_bind]
  exact Wire.bind_ok hop

theorem updateStore_error {op : AbiStore → Action.Op AbiStore}
    (h : op s.store s.context = .error e c) :
    updateStore op s = .error e { s with context := c } := by
  have hop : inContext (op s.store) s = .error e { s with context := c } := by
    simp only [inContext, h]
  rw [updateStore, get_bind]
  exact Wire.bind_error hop

theorem ends_of_given {a : Addition} {op : AbiStore → Action.Op AbiStore}
    (hgiven : a.given s.context.config = .ok abi)
    (hop : op s.store s.context = s.store.insert a.account abi s.context) :
    a.Ends s (updateStore op s) := by
  cases hunpack : Abi.Document.unpack s.context.config abi with
  | ok d =>
    rw [updateStore_ok (hop.trans (insert_ok hunpack s.store a.account))]
    exact .stored hgiven hunpack
  | error e =>
    rw [updateStore_error (hop.trans (insert_error hunpack s.store a.account))]
    exact .malformed hgiven hunpack rfl

theorem ends_of_not_given {a : Addition} {op : AbiStore → Action.Op AbiStore}
    (hgiven : a.given s.context.config = .error e) (hop : op s.store s.context = .error e c)
    (hconfig : c.config = s.context.config) : a.Ends s (updateStore op s) := by
  rw [updateStore_error hop]
  exact .notGiven hgiven hconfig

theorem given_json (htext : Abi.Document.parse? text = some d) (config : Abi.Config)
    (account : Name) : (json account text).given config = (d.pack config).mapError .abi := by
  rw [given, htext]

theorem ends_hex (account : Name) (text : String) (s : Session) :
    (hex account text).Ends s (addAbiHex account text s) := by
  rw [addAbiHex]
  cases htext : Hex.decode text with
  | ok abi =>
    have hgiven : (hex account text).given s.context.config = .ok abi := by
      rw [given, htext]
      rfl
    have hop : s.store.insertHex account text s.context =
        s.store.insert account abi s.context := by
      rw [AbiStore.insertHex, htext]
    exact ends_of_given hgiven hop
  | error e =>
    have hgiven : (hex account text).given s.context.config = .error (.hex e) := by
      rw [given, htext]
      rfl
    have hop : s.store.insertHex account text s.context = .error (.hex e) s.context := by
      rw [AbiStore.insertHex, htext]
      rfl
    exact ends_of_not_given hgiven hop rfl

theorem ends_json (account : Name) (text : String) (s : Session) :
    (json account text).Ends s (addAbiJson account text s) := by
  rw [addAbiJson]
  cases htext : Abi.Document.parse? text with
  | none =>
    have hgiven : (json account text).given s.context.config =
        .error (.abi (.schema .malformedText)) := by
      rw [given, htext]
    have hop : s.store.insertJson account text s.context =
        .error (.abi (.schema .malformedText)) s.context := by
      rw [AbiStore.insertJson, htext]
      rfl
    exact ends_of_not_given hgiven hop rfl
  | some d =>
    have hgiven := given_json htext s.context.config account
    have hserialize : Abi.Context.serializeAbi d s.context = _ :=
      Abi.Context.settle_recorded (Abi.Context.packDocument_apply d)
    cases hpack : d.pack s.context.config with
    | ok abi =>
      rw [hpack] at hgiven hserialize
      have hop : s.store.insertJson account text s.context =
          s.store.insert account abi s.context := by
        rw [AbiStore.insertJson, htext]
        exact Wire.bind_ok (Transaction.inContext_eq_ok.mpr hserialize)
      exact ends_of_given hgiven hop
    | error e =>
      rw [hpack] at hgiven hserialize
      have hop : s.store.insertJson account text s.context =
          .error (.abi e) { s.context with lastError := some e.message } := by
        rw [AbiStore.insertJson, htext]
        exact Wire.bind_error (inContext_error hserialize)
      exact ends_of_not_given hgiven hop rfl

theorem ends (a : Addition) (s : Session) : a.Ends s (a.perform s) := by
  cases a with
  | packed account abi =>
    rw [perform, addAbi]
    exact ends_of_given rfl rfl
  | hex account text => exact ends_hex account text s
  | json account text => exact ends_json account text s

/-- An addition succeeds just if what is given unpacks, and then changes the one schema. -/
theorem perform_eq_ok {a : Addition} : a.perform s = .ok () s' ↔
    ∃ abi d, a.given s.context.config = .ok abi ∧
      Abi.Document.unpack s.context.config abi = .ok d ∧
      s' = { s with store := ⟨s.store.entries.insert a.account abi⟩ } := by
  have hends := a.ends s
  generalize a.perform s = r at hends ⊢
  constructor
  · rintro rfl
    cases hends with
    | stored hgiven hunpack => exact ⟨_, _, hgiven, hunpack, rfl⟩
  · rintro ⟨abi, d, hgiven, hunpack, rfl⟩
    cases hends with
    | stored hgiven' hunpack' =>
      rw [hgiven] at hgiven'
      cases hgiven'
      rfl
    | notGiven hgiven' hconfig =>
      rw [hgiven] at hgiven'
      cases hgiven'
    | malformed hgiven' hunpack' hconfig =>
      rw [hgiven] at hgiven'
      cases hgiven'
      rw [hunpack] at hunpack'
      cases hunpack'

theorem store_of_error {a : Addition} (h : a.perform s = .error e s') : s'.store = s.store := by
  have hends := a.ends s
  rw [h] at hends
  cases hends with
  | notGiven hgiven hconfig => rfl
  | malformed hgiven hunpack hconfig => rfl

theorem given_of_json_error {account : Name} (h : addAbiJson account text s = .error e s') :
    (Addition.json account text).given s.context.config = .error e := by
  have hends := ends_json account text s
  rw [h] at hends
  cases hends with
  | notGiven hgiven hconfig => exact hgiven
  | malformed hgiven hunpack hconfig =>
    rw [given] at hgiven
    split at hgiven
    · cases hgiven
    · rename_i d htext
      rw [Abi.Document.unpack_pack (Result.mapError_eq_ok.mp hgiven)] at hunpack
      cases hunpack

theorem serializeAbi_of_json_error {account : Name} (h : addAbiJson account text s = .error e s')
    (htext : Abi.Document.parse? text = some d) :
    ∃ e' c, Abi.Context.serializeAbi d s.context = .error e' c ∧ e = .abi e' := by
  have hgiven := given_of_json_error h
  rw [given_json htext] at hgiven
  cases hpack : d.pack s.context.config with
  | ok abi =>
    rw [hpack] at hgiven
    cases hgiven
  | error e' =>
    rw [hpack] at hgiven
    cases hgiven
    refine ⟨e', s.context.noting (d.pack s.context.config), ?_, rfl⟩
    rw [Abi.Context.serializeAbi,
      Abi.Context.settle_recorded (Abi.Context.packDocument_apply d)]
    exact Abi.Context.settle_noting_eq_error.mpr ⟨hpack, rfl⟩

theorem isReadable (a : Addition) (h : s.IsReadable config) :
    (final (a.perform s)).IsReadable config := by
  obtain ⟨rfl, hstore⟩ := h
  have hends := a.ends s
  generalize a.perform s = r at hends
  cases hends with
  | stored hgiven hunpack => exact ⟨rfl, hstore.insert hunpack a.account⟩
  | notGiven hgiven hconfig => exact ⟨hconfig, hstore⟩
  | malformed hgiven hunpack hconfig => exact ⟨hconfig, hstore⟩

end Addition

/-- The session behind additions, each of which is made also if one before it failed. -/
def adding (s : Session) (as : List Addition) : Session :=
  as.foldl (fun s a => final (a.perform s)) s

def stored (s : Session) (as : List Addition) : AbiStore :=
  (adding { s with store := .empty } as).store

theorem IsReadable.adding (h : s.IsReadable config) (as : List Addition) :
    (s.adding as).IsReadable config := by
  induction as generalizing s with
  | nil => exact h
  | cons a as ih => exact ih (a.isReadable h)

/-- Whatever is added to an empty store, the schema of each account in it is found, as a document
and as text. An addition that fails leaves the store as it was, and one of JSON text fails only if
the text is no document or the document cannot be packed. -/
theorem stored_document (s : Session) (as : List Addition) :
    ((∀ account, (s.stored as).contains account = true →
        ∀ c : Abi.Context, c.config = s.context.config →
          ∃ d, (s.stored as).document account c = .ok d c ∧
            (s.stored as).json account c = .ok d.text c) ∧
      (adding { s with store := .empty } as).context.config = s.context.config) ∧
    (∀ (t : Session) (a : Addition) e t', a.perform t = .error e t' → t'.store = t.store) ∧
    ∀ (t : Session) account text e t', addAbiJson account text t = .error e t' →
      Abi.Document.parse? text = none ∨ ∃ d, Abi.Document.parse? text = some d ∧
        ∃ e' c, Abi.Context.serializeAbi d t.context = .error e' c ∧ e = .abi e' := by
  have hempty : IsReadable s.context.config { s with store := .empty } :=
    ⟨rfl, AbiStore.isReadable_empty _⟩
  obtain ⟨hconfig, hstore⟩ := hempty.adding as
  refine ⟨⟨?_, hconfig⟩, fun t a e t' h => Addition.store_of_error h, ?_⟩
  · intro account hcontains c hc
    rw [← hc] at hstore
    exact hstore.document hcontains
  · intro t account text e t' h
    cases htext : Abi.Document.parse? text with
    | none => exact .inl rfl
    | some d => exact .inr ⟨d, rfl, Addition.serializeAbi_of_json_error h htext⟩

def packedSample : Addition := .packed ⟨2⟩ Abi.Context.samplePacked

def sampleAdditions : List Addition := [.packed ⟨1⟩ [9], packedSample, .hex ⟨3⟩ "0"]

theorem contains_sampleAdditions :
    [⟨1⟩, ⟨2⟩, ⟨3⟩].map (askingSession.stored sampleAdditions).contains = [false, true, false] := by
  decide +kernel

theorem stored_document_sample :
    (∃ s', packedSample.perform askingSession = .ok () s') ∧
    (askingSession.stored sampleAdditions).contains ⟨2⟩ = true ∧
    ∃ d, (askingSession.stored sampleAdditions).document ⟨2⟩ askingSession.context =
        .ok d askingSession.context ∧
      (askingSession.stored sampleAdditions).json ⟨2⟩ askingSession.context =
        .ok d.text askingSession.context := by
  have hunpack : Abi.Document.unpack askingSession.context.config Abi.Context.samplePacked =
      .ok Abi.Context.sampleDocument.unpacked :=
    Result.toOption_eq_some.mp (by decide +kernel)
  have hcontains : (askingSession.stored sampleAdditions).contains ⟨2⟩ = true :=
    (List.cons.inj (List.cons.inj contains_sampleAdditions).2).1
  obtain ⟨⟨hdocument, -⟩, -⟩ := stored_document askingSession sampleAdditions
  refine ⟨⟨_, Addition.perform_eq_ok.mpr ⟨_, _, rfl, hunpack, rfl⟩⟩, hcontains, ?_⟩
  exact hdocument ⟨2⟩ hcontains askingSession.context rfl

end Session
end ChainKit
