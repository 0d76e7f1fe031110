import ChainKit.Proofs.Abi.Context.Operation
import ChainKit.Proofs.Abi.Lookup
import ChainKit.Proofs.Result

namespace ChainKit.Abi.Context
set_option autoImplicit true

def readDocument (json : String) : Except Error Document :=
  match Document.parse? json with
  | some d => .ok d
  | none => .error (.schema .malformedText)

def readValue (type json : String) : Except Error Json :=
  match Json.parse? json with
  | some v => .ok v
  | none => .error (.encode type ⟨[], .malformedText⟩)

def readHex (type hex : String) : Except Error Bytes :=
  (Hex.decode hex).mapError fun e => .decode type ⟨[], 0, .hex e⟩

def check (d : Document) : Except Error Contract := (Contract.ofDocument d).mapError .schema

/-- The contract whose entry an operation sets, and the document that its input gives. -/
def Operation.given? (config : Config) : Operation → Option (Name × Except Error Document)
  | setAbi k json => some (k, readDocument json)
  | setDocument k d => some (k, .ok d)
  | setBinary k bs => some (k, Document.unpack config bs)
  | setHex k hex => some (k, readHex Standard.abiDefType hex >>= Document.unpack config)
  | serialize k? name json d => some (k?.getD .empty, (fun _ => d) <$> readValue name json)
  | deserialize k? name hex d => some (k?.getD .empty, (fun _ => d) <$> readHex name hex)
  | _ => none

/-- A plain map from names to documents, and the message of the last failure. -/
structure Registry where
  documents : Name → Option Document
  message : Option String

namespace Registry

def empty : Registry := ⟨fun _ => none, none⟩

def contract (r : Registry) (k : Name) : Except Error Contract :=
  match r.documents k with
  | some d => check d
  | none => .error (.unknownContract k)

def entry (k : Name) (kind : EntryKind) (name : Name) (type? : Option String) :
    Except Error String :=
  match type? with
  | some type => .ok type
  | none => .error (.unknownEntry k kind name)

/-- What an operation answers, by the documents alone. -/
def answer (config : Config) (r : Registry) : Operation → Outcome
  | .setAbi _ json => .loaded <$> (readDocument json >>= check)
  | .setDocument _ d => .loaded <$> check d
  | .setBinary _ bs => .loaded <$> (Document.unpack config bs >>= check)
  | .setHex _ hex =>
    .loaded <$> (readHex Standard.abiDefType hex >>= Document.unpack config >>= check)
  | .remove k => .ok (.removed (r.documents k).isSome)
  | .actionType k action => .type <$> do
    entry k .action action ((← r.contract k).actionType? action)
  | .tableType k table => .type <$> do
    entry k .table table ((← r.contract k).tableType? table)
  | .encodeText k type json => .bytes <$> do
    let v ← readValue type json
    (← r.contract k).encode config type v
  | .encode k type v => .bytes <$> do (← r.contract k).encode config type v
  | .decode k type bs => .value <$> do (← r.contract k).decode config type bs
  | .decodeHex k type hex => .value <$> do
    let bs ← readHex type hex
    (← r.contract k).decode config type bs
  | .serialize _ name json d => .bytes <$> do
    let v ← readValue name json
    let c ← check d
    c.encode config (c.actionOrType name) v
  | .deserialize _ name hex d => .value <$> do
    let bs ← readHex name hex
    let c ← check d
    c.decode config (c.actionOrType name) bs
  | .packTransaction v =>
    .bytes <$> Standard.transactionContract.encode config Standard.transactionType v
  | .unpackTransaction bs =>
    .value <$> Standard.transactionContract.decode config Standard.transactionType bs
  | .serializeTransaction json => .bytes <$> do
    let v ← readValue Standard.transactionType json
    Standard.transactionContract.encode config Standard.transactionType v
  | .deserializeTransaction hex => .value <$> do
    let bs ← readHex Standard.transactionType hex
    Standard.transactionContract.decode config Standard.transactionType bs
  | .serializeAbi d => .bytes <$> d.pack config
  | .deserializeAbi bs => .document <$> Document.unpack config bs
  | .nameValue s =>
    .word <$> Name.value <$> (Name.parse s).mapError fun e => .encode "name" ⟨[], .name e⟩
  | .clearError => .ok .done

/-- The map with the entry of a contract that was loaded. -/
def set (documents : Name → Option Document) (k : Name) (r : Except Error Contract) :
    Name → Option Document :=
  match r with
  | .ok l => fun k' => if k = k' then some l.document else documents k'
  | .error _ => documents

/-- The map with a given document that is well formed, or without a removed one. -/
def documentsAfter (config : Config) (o : Operation) (documents : Name → Option Document) :
    Name → Option Document :=
  match o with
  | .remove k => fun k' => if k = k' then none else documents k'
  | o =>
    match o.given? config with
    | some (k, given) => set documents k (given >>= check)
    | none => documents

def messageAfter (o : Operation) (outcome : Outcome) (message : Option String) : Option String :=
  match outcome with
  | .error e => some e.message
  | .ok _ => if o.isClear then none else message

def step (config : Config) (r : Registry) (o : Operation) : Outcome × Registry :=
  (r.answer config o,
    ⟨documentsAfter config o r.documents, messageAfter o (r.answer config o) r.message⟩)

end Registry

/-- Whether each loaded contract is what its document makes. -/
def IsSound (c : Context) : Prop :=
  ∀ k l, c.contracts.find? k = some l → Contract.ofDocument l.document = .ok l

def registry (c : Context) : Registry := ⟨fun k => c.document? k, c.lastError⟩

variable {c : Context}

theorem parseDocument_apply (json : String) :
    parseDocument json c = settle (readDocument json) c := by
  unfold parseDocument readDocument
  cases Document.parse? json <;> rfl

theorem parseValue_apply (type json : String) :
    parseValue type json c = settle (readValue type json) c := by
  unfold parseValue readValue
  cases Json.parse? json <;> rfl

theorem parseHex_apply (type hex : String) : parseHex type hex c = settle (readHex type hex) c := by
  unfold parseHex readHex
  cases Hex.decode hex <;> rfl

theorem put_config (c : Context) (k : Name) (r : Except Error Contract) :
    (c.put k r).config = c.config := by
  cases r <;> rfl

theorem install_apply (k : Name) (d : Document) :
    install k d c = settle (check d) (c.put k (check d)) := by
  unfold install check
  cases Contract.ofDocument d <;> rfl

theorem IsSound.loaded_apply (h : c.IsSound) (k : Name) :
    loaded k c = settle (c.registry.contract k) c := by
  simp only [loaded, get_bind, Registry.contract, registry, document?]
  cases hk : c.contracts.find? k with
  | none => rfl
  | some l =>
    simp only [Option.map_some, check, h k l hk]
    rfl

/-- Loading a document that is loaded already is no change. -/
theorem IsSound.ensure_apply (h : c.IsSound) (k : Name) (d : Document) :
    ensure k d c = settle (check d) (c.put k (check d)) := by
  simp only [ensure, get_bind]
  cases hk : c.contracts.find? k with
  | none => exact install_apply k d
  | some l =>
    simp only
    split
    · rename_i hd
      have hl : check d = .ok l := by rw [check, ← hd, h k l hk]; rfl
      rw [hl, put, SortedMap.insert_of_find? hk]
      rfl
    · exact install_apply k d

def behind (c : Context) (o : Operation) : Context :=
  match o with
  | .remove k => { c with contracts := c.contracts.erase k }
  | .clearError => c.clearError
  | o =>
    match o.given? c.config with
    | some (k, given) => (c.put k (given >>= check)).noting (c.registry.answer c.config o)
    | none => c.noting (c.registry.answer c.config o)

theorem noting_map (f : α → β) (c : Context) (r : Except Error α) :
    c.noting (f <$> r) = c.noting r := by
  cases r <;> rfl

/-- An operation keeps its message, and answers with a part of what it made. -/
theorem settle_answer {x : Op α} {r : Except Error α} (f : α → Reply) (h : x c = settle r c') :
    (f <$> recorded x) c = settle (f <$> r) (c'.noting (f <$> r)) := by
  rw [settle_map f (settle_recorded h), noting_map]

theorem settle_load {x : Op Document} {given : Except Error Document} (h : x c = settle given c)
    (k : Name) : (Reply.loaded <$> recorded (x >>= install k)) c =
      settle (Reply.loaded <$> (given >>= check))
        ((c.put k (given >>= check)).noting (Reply.loaded <$> (given >>= check))) := by
  apply settle_answer
  apply settle_bind_put h
  intro d
  exact install_apply k d

/-- An operation that reads an input, loads a given document and converts the input by it. -/
theorem IsSound.settle_convert {x : Op α} {r : Except Error α} {f : α → Contract → Op β}
    {g : α → Contract → Except Error β} (h : c.IsSound) (hx : x c = settle r c)
    (hf : ∀ a l c', c'.config = c.config → f a l c' = settle (g a l) c') (k : Name) (d : Document) :
    (x >>= fun a => ensure k d >>= f a) c = settle (r >>= fun a => check d >>= g a)
      (c.put k (((fun _ => d) <$> r) >>= check)) := by
  rw [bind_map_left]
  apply settle_bind_put hx
  intro a
  apply settle_bind (h.ensure_apply k d)
  intro l
  exact hf a l _ (put_config c k _)

/-- An operation is carried out as the documents say. -/
theorem IsSound.perform_eq (h : c.IsSound) (o : Operation) :
    o.perform c = settle (c.registry.answer c.config o) (c.behind o) := by
  cases o with
  | setAbi k json => exact settle_load (parseDocument_apply json) k
  | setDocument k d => exact settle_answer _ (install_apply k d)
  | setBinary k bs => exact settle_load (unpackDocument_apply bs) k
  | setHex k hex =>
    have hread := settle_bind (parseHex_apply (c := c) Standard.abiDefType hex)
      unpackDocument_apply
    have hload := settle_load hread k
    rw [bind_assoc (parseHex Standard.abiDefType hex)] at hload
    exact hload
  | remove k =>
    change EStateM.Result.ok (Reply.removed (c.contracts.find? k).isSome) _ = _
    simp only [Registry.answer, registry, document?, Option.isSome_map]
    rfl
  | actionType k action =>
    apply settle_answer
    apply settle_bind (h.loaded_apply k)
    intro l
    cases l.actionType? action <;> rfl
  | tableType k table =>
    apply settle_answer
    apply settle_bind (h.loaded_apply k)
    intro l
    cases l.tableType? table <;> rfl
  | encodeText k type json =>
    apply settle_answer
    apply settle_bind (parseValue_apply type json)
    intro v
    apply settle_bind (h.loaded_apply k)
    intro l
    exact encodeWith_apply l type v
  | encode k type v =>
    apply settle_answer
    apply settle_bind (h.loaded_apply k)
    intro l
    exact encodeWith_apply l type v
  | decode k type bs =>
    apply settle_answer
    apply settle_bind (h.loaded_apply k)
    intro l
    exact decodeWith_apply l type bs
  | decodeHex k type hex =>
    apply settle_answer
    apply settle_bind (parseHex_apply type hex)
    intro bs
    apply settle_bind (h.loaded_apply k)
    intro l
    exact decodeWith_apply l type bs
  | serialize k? name json d =>
    apply settle_answer
    apply h.settle_convert (parseValue_apply name json)
    intro v l c' hc
    rw [encodeWith_apply, hc]
  | deserialize k? name hex d =>
    apply settle_answer
    apply h.settle_convert (parseHex_apply name hex)
    intro bs l c' hc
    rw [decodeWith_apply, hc]
  | packTransaction v => exact settle_answer _ (encodeWith_apply _ _ v)
  | unpackTransaction bs => exact settle_answer _ (decodeWith_apply _ _ bs)
  | serializeTransaction json =>
    apply settle_answer
    apply settle_bind (parseValue_apply Standard.transactionType json)
    intro v
    exact encodeWith_apply _ _ v
  | deserializeTransaction hex =>
    apply settle_answer
    apply settle_bind (parseHex_apply Standard.transactionType hex)
    intro bs
    exact decodeWith_apply _ _ bs
  | serializeAbi d =>
    simp only [behind, Operation.given?, Registry.answer]
    exact settle_answer Reply.bytes (packDocument_apply d)
  | deserializeAbi bs =>
    simp only [behind, Operation.given?, Registry.answer]
    exact settle_answer Reply.document (unpackDocument_apply bs)
  | nameValue s =>
    apply settle_answer
    cases Name.parse s <;> rfl
  | clearError => rfl

theorem check_eq_ok (h : check d = .ok l) : Contract.ofDocument l.document = .ok l := by
  have hd : Contract.ofDocument d = .ok l := Result.mapError_eq_ok.mp h
  rw [Contract.document_of_ofDocument hd, hd]

theorem IsSound.put (h : c.IsSound) (k : Name) (given : Except Error Document) :
    (c.put k (given >>= check)).IsSound := by
  intro k' l hl
  cases hr : given >>= check with
  | error e =>
    rw [hr] at hl
    exact h k' l hl
  | ok new =>
    rw [hr] at hl
    have hfind := SortedMap.find?_insert c.contracts k k' new
    rw [show c.contracts.insert k new = (c.put k (.ok new)).contracts from rfl, hl] at hfind
    split at hfind
    · cases hfind
      obtain ⟨d, -, hd⟩ := Result.bind_eq_ok.mp hr
      exact check_eq_ok hd
    · exact h k' l hfind.symm

theorem IsSound.noting (h : c.IsSound) (r : Except Error α) : (c.noting r).IsSound := by
  cases r <;> exact h

theorem IsSound.behind (h : c.IsSound) (o : Operation) : (c.behind o).IsSound := by
  unfold Context.behind
  split
  · rename_i k
    intro k' l hl
    rw [SortedMap.find?_erase] at hl
    split at hl
    · cases hl
    · exact h k' l hl
  · exact h
  · split
    · exact (h.put _ _).noting _
    · exact h.noting _

theorem documents_put (c : Context) (k : Name) (r : Except Error Contract) :
    (c.put k r).registry.documents = Registry.set c.registry.documents k r := by
  cases r with
  | error e => rfl
  | ok l =>
    funext k'
    simp only [put, registry, document?, SortedMap.find?_insert, Registry.set]
    by_cases hk : k = k'
    · simp only [hk, if_true, Option.map_some]
    · rw [if_neg hk, if_neg fun hr => hk (Ranked.rank_inj hr)]

theorem registry_noting (c : Context) (r : Outcome) (hclear : o.isClear = false) :
    (c.noting r).registry = ⟨c.registry.documents, Registry.messageAfter o r c.lastError⟩ := by
  cases r with
  | error e => rfl
  | ok a =>
    simp only [noting, Registry.messageAfter, hclear]
    rfl

theorem put_lastError (c : Context) (k : Name) (r : Except Error Contract) :
    (c.put k r).lastError = c.lastError := by
  cases r <;> rfl

theorem behind_config (c : Context) (o : Operation) : (c.behind o).config = c.config := by
  have hnoting (c : Context) (r : Outcome) : (c.noting r).config = c.config := by
    cases r <;> rfl
  unfold behind
  split
  · rfl
  · rfl
  · split
    · rw [hnoting, put_config]
    · rw [hnoting]

/-- What can be seen of a context behind an operation is what the registry says. -/
theorem registry_behind (c : Context) (o : Operation) :
    (c.behind o).registry = (Registry.step c.config c.registry o).2 := by
  unfold behind
  split
  · rename_i k
    simp only [registry, document?, Registry.step, Registry.documentsAfter, Registry.mk.injEq]
    refine ⟨?_, rfl⟩
    funext k'
    rw [SortedMap.find?_erase]
    by_cases hk : k = k'
    · simp only [hk, if_true, Option.map_none]
    · rw [if_neg hk, if_neg fun hr => hk (Ranked.rank_inj hr)]
  · rfl
  · rename_i hremove hclear
    have hclear : o.isClear = false := by
      cases o with
      | clearError => exact absurd rfl hclear
      | _ => rfl
    have hdocuments : Registry.documentsAfter c.config o c.registry.documents =
        match o.given? c.config with
        | some (k, given) => Registry.set c.registry.documents k (given >>= check)
        | none => c.registry.documents := by
      unfold Registry.documentsAfter
      split
      · exact absurd rfl (hremove _)
      · rfl
    rw [Registry.step, hdocuments]
    cases o.given? c.config with
    | none => exact registry_noting c _ hclear
    | some entry =>
      simp only
      rw [registry_noting _ _ hclear, documents_put, put_lastError]
      rfl

/-- Whether a context under given limits is sound and shows a registry. -/
structure Shows (config : Config) (c : Context) (r : Registry) : Prop where
  config_eq : c.config = config
  sound : c.IsSound
  registry_eq : c.registry = r

theorem shows_new (config : Config) : Shows config (new config) .empty :=
  ⟨rfl, nofun, rfl⟩

theorem Shows.step {config : Config} (h : Shows config c r) (o : Operation) :
    (step c o).1 = (Registry.step config r o).1 ∧
      Shows config (step c o).2 (Registry.step config r o).2 := by
  obtain ⟨rfl, hsound, rfl⟩ := h
  rw [step_eq (hsound.perform_eq o)]
  exact ⟨rfl, behind_config c o, hsound.behind o, registry_behind c o⟩

/-- The message of the last failure behind the last clearing, in a history from its end on. -/
def lastFailure : List (Operation × Outcome) → Option String
  | [] => none
  | (_, .error e) :: _ => some e.message
  | (o, .ok _) :: earlier => if o.isClear then none else lastFailure earlier

theorem message_run (config : Config) (os : List Operation) :
    (run (Registry.step config) .empty os).2.message =
      lastFailure (os.zip (run (Registry.step config) .empty os).1).reverse := by
  -- The last operation decides, so the induction is on the operations from their end on.
  suffices h : ∀ newest : List Operation,
      (run (Registry.step config) .empty newest.reverse).2.message =
        lastFailure
          (newest.reverse.zip (run (Registry.step config) .empty newest.reverse).1).reverse by
    have hos := h os.reverse
    rwa [List.reverse_reverse] at hos
  intro newest
  induction newest with
  | nil => rfl
  | cons o newest ih =>
    have hlength := length_run (Registry.step config) .empty newest.reverse
    rw [List.reverse_cons, run_append, List.zip_append hlength.symm, List.reverse_append]
    simp only [run, List.zip_cons_cons, List.zip_nil_right, List.reverse_singleton,
      List.singleton_append, Registry.step, Registry.messageAfter]
    cases Registry.answer config (run (Registry.step config) .empty newest.reverse).2 o with
    | error e => rfl
    | ok reply => simp only [lastFailure, ih]

/-- A context behaves as a plain map from names to documents with a message: each run has the
outcomes of the map and shows its documents and its message, which is that of the last failure
since the last clearing. Each contract is what its document makes, and the names are in order. -/
theorem run_eq_registry (config : Config) (os : List Operation) :
    let c := (run step (new config) os).2
    let r := (run (Registry.step config) .empty os).2
    (run step (new config) os).1 = (run (Registry.step config) .empty os).1 ∧
    (∀ k, c.document? k = r.documents k) ∧
    c.lastError = r.message ∧
    r.message = lastFailure (os.zip (run step (new config) os).1).reverse ∧
    (∀ k l, c.contracts.find? k = some l → Contract.ofDocument l.document = .ok l) ∧
    c.names.Pairwise (fun k k' => k.value < k'.value) ∧
    ∀ k, k ∈ c.names ↔ (r.documents k).isSome := by
  intro c r
  obtain ⟨houtcomes, hshows⟩ := run_related step (Registry.step config)
    (R := Shows config) (fun _ _ o h => h.step o) (shows_new config) os
  have hregistry : c.registry = r := hshows.registry_eq
  have hdocuments : ∀ k, c.document? k = r.documents k := by
    intro k
    rw [← hregistry]
    rfl
  have hmessage : c.lastError = r.message := by
    rw [← hregistry]
    rfl
  have hnames : c.names.Pairwise fun k k' => k.value < k'.value := by
    apply List.pairwise_map.mpr
    exact c.contracts.sorted.imp UInt64.lt_iff_toNat_lt.mpr
  refine ⟨houtcomes, hdocuments, hmessage, ?_, hshows.sound, hnames, ?_⟩
  · rw [houtcomes]
    exact message_run config os
  · intro k
    rw [← hdocuments, document?, Option.isSome_map]
    exact SortedMap.mem_keys

end ChainKit.Abi.Context
