import ChainKit.Proofs.Abi.Context.Registry
import ChainKit.Proofs.Resuming
import ChainKit.Session

namespace ChainKit
set_option autoImplicit true

/-- What a node answers. -/
structure Knowledge where
  info : NodeInfo
  block? : UInt32 → Option BlockInfo
  abi? : Name → Option RawAbi

def Node.knowledge (n : Node) : Knowledge := ⟨n.info, n.blocks.find?, n.abis.find?⟩

/-- Whether a node that knows `k'` answers all that one does that knows `k`, and in the same way. -/
structure Knowledge.IsWithin (k k' : Knowledge) : Prop where
  info : k'.info = k.info
  block? : k.block? number = some block → k'.block? number = some block
  abi? : k.abi? account = some answer → k'.abi? account = some answer

/-- A transaction in preparation, with the schemas that are stored. -/
structure Draft where
  store : AbiStore
  transaction : Transaction

namespace Transaction

def unpackedAccounts (t : Transaction) : List Name :=
  (t.allActions.filter fun a => !a.isPacked).map Action.account

def isReferenced (t : Transaction) : Bool :=
  t.chainId.isSome ∧ t.expiration.secs ≠ 0 ∧ t.refBlockMark ≠ 0

theorem allActions_withAllActions (t : Transaction) (as : List Action) :
    (t.withAllActions as).allActions = as := List.take_append_drop _ as

theorem withAllActions_withAllActions {t : Transaction} (h : as.length = t.allActions.length)
    (bs : List Action) : (t.withAllActions as).withAllActions bs = t.withAllActions bs := by
  have hlength : (as.take t.contextFreeActions.length).length = t.contextFreeActions.length := by
    rw [allActions, List.length_append] at h
    rw [List.length_take, h]
    omega
  simp only [withAllActions, hlength]

end Transaction

namespace AbiStore

theorem contains_insert (s : AbiStore) (account account' : Name) (abi : Bytes) :
    contains ⟨s.entries.insert account abi⟩ account' = true ↔
      account = account' ∨ s.contains account' = true := by
  simp only [contains, SortedMap.contains, SortedMap.find?_insert]
  by_cases hsame : account = account'
  · simp [hsame]
  · rw [if_neg fun hrank => hsame (Ranked.rank_inj hrank)]
    simp [hsame]

variable {s : AbiStore}

theorem missing_cons (h : (!s.contains account) = true) (rest : List Name) :
    s.missing (account :: rest) = account ::
      ((rest.filter fun a => !s.contains a).filter fun a => !a == account).eraseDups := by
  rw [missing, List.filter_cons, if_pos h, List.eraseDups_cons]

theorem missing_cons_of_contains (h : s.contains account = true) (rest : List Name) :
    s.missing (account :: rest) = s.missing rest := by
  rw [missing, List.filter_cons, h]
  rfl

theorem missing_eq_nil : s.missing accounts = [] ↔ ∀ a ∈ accounts, s.contains a = true := by
  rw [missing]
  cases hlacking : accounts.filter fun a => !s.contains a with
  | nil => simpa using hlacking
  | cons account rest =>
    rw [List.eraseDups_cons]
    have hmem : account ∈ accounts.filter fun a => !s.contains a := by simp [hlacking]
    obtain ⟨haccount, hlacks⟩ := List.mem_filter.mp hmem
    constructor
    · nofun
    · intro h
      rw [h account haccount] at hlacks
      cases hlacks

end AbiStore

namespace Draft

abbrev Op := EStateM ClientError Draft

def withTransaction (d : Draft) (t : Transaction) : Draft := { d with transaction := t }

def lacksChainId (info : NodeInfo) (d : Draft) : Bool :=
  d.transaction.chainId ≠ some info.chainId

def withChainId (info : NodeInfo) (d : Draft) : Except ClientError Draft :=
  match d.transaction.chainId with
  | none => .ok (d.withTransaction { d.transaction with chainId := some info.chainId })
  | some provided => .error (.chainIdMismatch provided info.chainId)

def fillChainId (info : NodeInfo) : Op Unit := attempt (lacksChainId info) (withChainId info)

def lacksExpiration (d : Draft) : Bool := d.transaction.expiration.secs = 0

def withExpiration (info : NodeInfo) (d : Draft) : Except ClientError Draft :=
  match Session.expirationAfter info.headBlockTime d.transaction.policy.expireSeconds with
  | .ok expiration => .ok (d.withTransaction { d.transaction with expiration })
  | .error e => .error e

def fillExpiration (info : NodeInfo) : Op Unit := attempt lacksExpiration (withExpiration info)

def referenceNumber (info : NodeInfo) (t : Transaction) : UInt32 :=
  Session.referenceNumber info.headBlockNum t.policy.blocksBehind

def lacksReference (d : Draft) : Bool := d.transaction.refBlockMark = 0

def withReference (k : Knowledge) (d : Draft) : Except ClientError Draft :=
  match k.block? (referenceNumber k.info d.transaction) with
  | some block => .ok (d.withTransaction
    { d.transaction with refBlockNum := block.number.toUInt16, refBlockMark := block.mark })
  | none => .error (.node (.unknownBlock (referenceNumber k.info d.transaction)))

def fillReference (k : Knowledge) : Op Unit := attempt lacksReference (withReference k)

def isReferenced (d : Draft) : Bool := d.transaction.isReferenced

def fillReferences (k : Knowledge) : Op Unit :=
  unlessDone isReferenced do
    fillChainId k.info
    fillExpiration k.info
    fillReference k

/-- The draft with a packed schema of an account, which must unpack. -/
def stored (config : Abi.Config) (account : Name) (abi : Bytes) (d : Draft) :
    Except ClientError Draft := do
  let _ ← (Abi.Document.unpack config abi).mapError .abi
  return { d with store := ⟨d.store.entries.insert account abi⟩ }

/-- The draft with the schema that is known of an account, whose digest must be the declared one. -/
def fetched (config : Abi.Config) (k : Knowledge) (account : Name) (d : Draft) :
    Except ClientError Draft :=
  match k.abi? account with
  | none => .error (.node (.unknownAccount account))
  | some answer =>
    let computed := Hash.sha256 answer.abi
    if computed ≠ answer.abiHash then
      .error (.abiHashMismatch account answer.abiHash computed)
    else stored config account answer.abi d

def fetchEach (config : Abi.Config) (k : Knowledge) (isNeeded : Name → Draft → Bool) :
    List Name → Op Unit
  | [] => return ()
  | account :: rest => do
    attempt (isNeeded account) (fetched config k account)
    fetchEach config k isNeeded rest

def lacksAbi (account : Name) (d : Draft) : Bool := !d.store.contains account

def fetchMissing (config : Abi.Config) (k : Knowledge) : Op Unit := fun d =>
  fetchEach config k lacksAbi d.transaction.unpackedAccounts d

def document (config : Abi.Config) (store : AbiStore) (account : Name) :
    Except ClientError Abi.Document :=
  match store.find? account with
  | none => .error (.missingAbis [account])
  | some abi => (Abi.Document.unpack config abi).mapError .abi

def packedBy (config : Abi.Config) (d : Abi.Document) (a : Action) : Except ClientError Action :=
  match a.data with
  | .packed _ => .ok a
  | .json v => do
    let bs ← (do
      let v ← Abi.Context.readValue a.name.text (Json.render v)
      let l ← Abi.Context.check d
      l.encode config (l.actionOrType a.name.text) v : Except Abi.Error Bytes).mapError .abi
    return { a with data := .packed bs }

/-- An action with its payload packed, by the schema that is stored if it is not. -/
def packed (config : Abi.Config) (store : AbiStore) (a : Action) : Except ClientError Action :=
  if a.isPacked then .ok a else do packedBy config (← document config store a.account) a

/-- The actions with what comes of each, up to the first failure. -/
def packEach (f : Action → Except ClientError Action) :
    List Action → List Action × Except ClientError Unit
  | [] => ([], .ok ())
  | a :: rest =>
    match f a with
    | .error e => (a :: rest, .error e)
    | .ok a => (a :: (packEach f rest).1, (packEach f rest).2)

def missing (d : Draft) : List Name := d.store.missing d.transaction.unpackedAccounts

def packing (config : Abi.Config) (d : Draft) : Draft :=
  d.withTransaction (d.transaction.withAllActions
    (packEach (packed config d.store) d.transaction.allActions).1)

def packActions (config : Abi.Config) : Op Unit := fun d =>
  if d.missing ≠ [] then .error (.missingAbis d.missing) d
  else ending (packEach (packed config d.store) d.transaction.allActions).2 (packing config d)

def prepare (config : Abi.Config) (k : Knowledge) : Op Unit := do
  fillReferences k
  fetchMissing config k
  packActions config

variable {k k' : Knowledge}

theorem withChainId_eq_ok : withChainId info d = .ok d' ↔ d.transaction.chainId = none ∧
    d' = d.withTransaction { d.transaction with chainId := some info.chainId } := by
  rw [withChainId]
  cases d.transaction.chainId with
  | none => simp [eq_comm]
  | some provided => simp

theorem withExpiration_eq_ok : withExpiration info d = .ok d' ↔ ∃ expiration,
    Session.expirationAfter info.headBlockTime d.transaction.policy.expireSeconds = .ok expiration ∧
      d' = d.withTransaction { d.transaction with expiration } := by
  rw [withExpiration]
  cases Session.expirationAfter info.headBlockTime d.transaction.policy.expireSeconds with
  | error e => simp
  | ok expiration => simp [eq_comm]

theorem withReference_eq_ok : withReference k d = .ok d' ↔ ∃ block,
    k.block? (referenceNumber k.info d.transaction) = some block ∧
      d' = d.withTransaction { d.transaction with
        refBlockNum := block.number.toUInt16, refBlockMark := block.mark } := by
  rw [withReference]
  cases k.block? (referenceNumber k.info d.transaction) with
  | none => simp
  | some block => simp [eq_comm]

theorem settles_fillChainId (info : NodeInfo) :
    Settles (fillChainId info) (fillChainId info) fun d =>
      d.transaction.chainId = some info.chainId := by
  apply Settles.attempt
  · intro d d' hfill
    refine ⟨hfill, ?_⟩
    rw [(withChainId_eq_ok.mp hfill).2]
    rfl
  · intro d hclosed
    simpa [lacksChainId] using hclosed
  · intro d hdone hopen
    simp [lacksChainId, hdone] at hopen

/-- Whether the expiration is set, or is what it would be set to. -/
def IsTimed (info : NodeInfo) (t : Transaction) : Prop := t.expiration.secs = 0 →
  Session.expirationAfter info.headBlockTime t.policy.expireSeconds = .ok t.expiration

theorem settles_fillExpiration (info : NodeInfo) :
    Settles (fillExpiration info) (fillExpiration info) fun d => IsTimed info d.transaction := by
  apply Settles.attempt
  · intro d d' hfill
    refine ⟨hfill, ?_⟩
    obtain ⟨expiration, hexpiration, rfl⟩ := withExpiration_eq_ok.mp hfill
    exact fun _ => hexpiration
  · intro d hclosed hopen
    simp [lacksExpiration, hopen] at hclosed
  · intro d hdone hopen
    exact withExpiration_eq_ok.mpr ⟨_, hdone (of_decide_eq_true hopen), rfl⟩

def IsPlaced (k : Knowledge) (t : Transaction) : Prop := t.refBlockMark = 0 →
  ∃ block, k.block? (referenceNumber k.info t) = some block ∧
    t.refBlockNum = block.number.toUInt16 ∧ t.refBlockMark = block.mark

theorem settles_fillReference (h : k.IsWithin k') :
    Settles (fillReference k) (fillReference k') fun d => IsPlaced k' d.transaction := by
  apply Settles.attempt
  · intro d d' hfill
    obtain ⟨block, hblock, rfl⟩ := withReference_eq_ok.mp hfill
    have hblock' := h.block? hblock
    rw [← h.info] at hblock'
    exact ⟨withReference_eq_ok.mpr ⟨block, hblock', rfl⟩, fun _ => ⟨block, hblock', rfl, rfl⟩⟩
  · intro d hclosed hopen
    simp [lacksReference, hopen] at hclosed
  · intro d hdone hopen
    obtain ⟨block, hblock, hnum, hmark⟩ := hdone (of_decide_eq_true hopen)
    apply withReference_eq_ok.mpr
    refine ⟨block, hblock, ?_⟩
    rw [← hnum, ← hmark]
    rfl

theorem preserves_fillExpiration (info : NodeInfo) :
    Preserves (fun d => d.transaction.chainId) (fillExpiration info) := by
  apply preserves_attempt
  intro d d' hfill
  obtain ⟨expiration, -, rfl⟩ := withExpiration_eq_ok.mp hfill
  rfl

theorem preserves_fillReference (k : Knowledge) :
    Preserves (fun d => (d.transaction.chainId, d.transaction.expiration, d.transaction.policy))
      (fillReference k) := by
  apply preserves_attempt
  intro d d' hfill
  obtain ⟨block, -, rfl⟩ := withReference_eq_ok.mp hfill
  rfl

/-- Whether nothing is open, or all is what it would be set to. -/
def HasReferences (k : Knowledge) (t : Transaction) : Prop :=
  t.isReferenced = true ∨ t.chainId = some k.info.chainId ∧ IsTimed k.info t ∧ IsPlaced k t

theorem settles_fillReferences (h : k.IsWithin k') :
    Settles (fillReferences k) (fillReferences k') fun d => HasReferences k' d.transaction := by
  have hbehind : Preserves (fun d => d.transaction.chainId)
      (fillExpiration k.info >>= fun _ => fillReference k) := by
    apply (preserves_fillExpiration k.info).bind
    exact fun _ => (preserves_fillReference k).comp Prod.fst
  have hlast := (settles_fillExpiration k.info).bind (settles_fillReference h) <| by
    intro d hd
    have hkept := preserves_fillReference k d
    simp only [Prod.mk.injEq] at hkept
    rwa [IsTimed, hkept.2.1, hkept.2.2]
  have hall := (settles_fillChainId k.info).bind hlast <| by
    intro d hd
    exact (hbehind d).trans hd
  have hunless := hall.unlessDone isReferenced <| by
    intro d hopen hdone
    obtain ⟨-, hexpiration, hmark⟩ := of_decide_eq_true hdone
    refine ⟨?_, fun hzero => absurd hzero hexpiration, fun hzero => absurd hzero hmark⟩
    cases hchain : fillChainId k.info d with
    | error e d₁ =>
      -- The one failure that leaves the chain id as it was leaves all as it was.
      rw [Wire.bind_error hchain] at hdone
      cases attempt_eq_error hchain
      cases hopen.symm.trans hdone
    | ok u d₁ =>
      rw [Wire.bind_ok hchain]
      exact (hbehind d₁).trans ((settles_fillChainId k.info).post hchain)
  simp only [fillReferences, HasReferences, h.info]
  exact hunless

theorem eq_of_stored (h : stored config account abi d = .ok d') :
    d' = { d with store := ⟨d.store.entries.insert account abi⟩ } := by
  obtain ⟨document, -, h⟩ := Result.bind_eq_ok.mp h
  cases h
  rfl

theorem fetched_eq_ok : fetched config k account d = .ok d' ↔ ∃ answer,
    k.abi? account = some answer ∧ Hash.sha256 answer.abi = answer.abiHash ∧
      stored config account answer.abi d = .ok d' := by
  rw [fetched]
  cases hanswer : k.abi? account with
  | none => simp
  | some answer =>
    by_cases hhash : Hash.sha256 answer.abi = answer.abiHash
    · simp [hhash]
    · simp [hhash]

theorem contains_of_fetched (h : fetched config k account d = .ok d') (account' : Name) :
    d'.store.contains account' = true ↔ account = account' ∨ d.store.contains account' = true := by
  obtain ⟨answer, -, -, hstored⟩ := fetched_eq_ok.mp h
  rw [eq_of_stored hstored]
  exact d.store.contains_insert account account' answer.abi

theorem settles_fetch (config : Abi.Config) (h : k.IsWithin k') (account : Name) :
    Settles (attempt (lacksAbi account) (fetched config k account))
      (attempt (lacksAbi account) (fetched config k' account))
      fun d => d.store.contains account = true := by
  apply Settles.attempt
  · intro d d' hfetched
    refine ⟨?_, (contains_of_fetched hfetched account).mpr (.inl rfl)⟩
    obtain ⟨answer, hanswer, hrest⟩ := fetched_eq_ok.mp hfetched
    exact fetched_eq_ok.mpr ⟨answer, h.abi? hanswer, hrest⟩
  · intro d hclosed
    simpa [lacksAbi] using hclosed
  · intro d hdone hopen
    simp [lacksAbi, hdone] at hopen

theorem contains_final_fetch (isOpen : Draft → Bool) (account account' : Name)
    (hd : d.store.contains account' = true) :
    (final (attempt isOpen (fetched config k account) d)).store.contains account' = true := by
  rcases final_attempt_cases isOpen (fetched config k account) d with hleft | hleft
  · rwa [hleft]
  · exact (contains_of_fetched hleft account').mpr (.inr hd)

theorem contains_final_fetchEach (isNeeded : Name → Draft → Bool) (accounts : List Name)
    (hd : d.store.contains account = true) :
    (final (fetchEach config k isNeeded accounts d)).store.contains account = true := by
  induction accounts generalizing d with
  | nil => exact hd
  | cons first rest ih =>
    rcases final_bind_cases (attempt (isNeeded first) (fetched config k first))
      (fetchEach config k isNeeded rest) d with hleft | hleft
    · rw [fetchEach, hleft]
      exact contains_final_fetch _ first account hd
    · rw [fetchEach, hleft]
      exact ih (contains_final_fetch _ first account hd)

theorem settles_fetchEach (config : Abi.Config) (h : k.IsWithin k') (accounts : List Name) :
    Settles (fetchEach config k lacksAbi accounts) (fetchEach config k' lacksAbi accounts) fun d =>
      ∀ account ∈ accounts, d.store.contains account = true := by
  induction accounts with
  | nil => exact Settles.pure.mono fun _ => ⟨fun _ => nofun, fun _ => trivial⟩
  | cons account rest ih =>
    have hboth := (settles_fetch config h account).bind ih fun d hd =>
      contains_final_fetchEach lacksAbi rest hd
    apply hboth.mono
    intro d
    rw [List.forall_mem_cons]

theorem preserves_fetchEach (config : Abi.Config) (k : Knowledge) (isNeeded : Name → Draft → Bool)
    (accounts : List Name) :
    Preserves Draft.transaction (fetchEach config k isNeeded accounts) := by
  induction accounts with
  | nil => exact .pure ()
  | cons account rest ih =>
    refine Preserves.bind (preserves_attempt ?_) fun _ => ih
    intro d d' hfetched
    obtain ⟨answer, -, -, hstored⟩ := fetched_eq_ok.mp hfetched
    rw [eq_of_stored hstored]

theorem preserves_fetchMissing (config : Abi.Config) (k : Knowledge) :
    Preserves Draft.transaction (fetchMissing config k) := by
  intro d
  exact preserves_fetchEach config k lacksAbi d.transaction.unpackedAccounts d

/-- Whether the schemas are stored that are needed to pack the actions. -/
def IsSupplied (d : Draft) : Prop :=
  ∀ account ∈ d.transaction.unpackedAccounts, d.store.contains account = true

theorem settles_fetchMissing (config : Abi.Config) (h : k.IsWithin k') :
    Settles (fetchMissing config k) (fetchMissing config k') IsSupplied := by
  have heach := settles_fetchEach config h
  have hkept := preserves_fetchMissing config k
  refine ⟨⟨?_, ?_⟩, ?_, ?_⟩
  · intro d d' hd
    exact (heach d.transaction.unpackedAccounts).covers hd
  · intro d
    rw [fetchMissing, hkept]
    exact (heach d.transaction.unpackedAccounts).resumes d
  · intro d d' hd
    have hsame := hkept d
    rw [hd, final] at hsame
    rw [IsSupplied, hsame]
    exact (heach d.transaction.unpackedAccounts).post hd
  · intro d hd
    exact (heach d.transaction.unpackedAccounts).done hd

theorem missing_of_fetched (hlacks : lacksAbi account d = true)
    (hfetched : fetched config k account d = .ok d') (rest : List Name) :
    d.store.missing (account :: rest) = account :: d'.store.missing rest := by
  rw [AbiStore.missing_cons hlacks, List.filter_filter, AbiStore.missing]
  congr 2
  apply List.filter_congr
  intro account' _
  have hcontains := contains_of_fetched hfetched account'
  rw [Bool.eq_iff_iff, Bool.and_eq_true, Bool.not_eq_true', Bool.not_eq_true', Bool.not_eq_true',
    ← Bool.not_eq_true, ← Bool.not_eq_true, ← Bool.not_eq_true, hcontains, beq_iff_eq, not_or,
    eq_comm]

/-- Asking for each account that is missing at first is asking for those that are missing still. -/
theorem fetchEach_missing (config : Abi.Config) (k : Knowledge) (accounts : List Name) (d : Draft) :
    fetchEach config k (fun _ _ => true) (d.store.missing accounts) d =
      fetchEach config k lacksAbi accounts d := by
  induction accounts generalizing d with
  | nil => rfl
  | cons account rest ih =>
    cases hlacks : lacksAbi account d with
    | false =>
      rw [AbiStore.missing_cons_of_contains (by simpa [lacksAbi] using hlacks), ih, fetchEach,
        Wire.bind_ok (attempt_of_not_isOpen hlacks)]
    | true =>
      cases hfetched : fetched config k account d with
      | error e =>
        rw [AbiStore.missing_cons hlacks, fetchEach, fetchEach,
          Wire.bind_error (attempt_of_error rfl hfetched),
          Wire.bind_error (attempt_of_error hlacks hfetched)]
      | ok d' =>
        rw [missing_of_fetched hlacks hfetched, fetchEach, fetchEach,
          Wire.bind_ok (attempt_of_ok rfl hfetched),
          Wire.bind_ok (attempt_of_ok hlacks hfetched), ih]

theorem packEach_again {f : Action → Except ClientError Action}
    (hf : ∀ a b, f a = .ok b → f b = .ok b) (as : List Action) :
    packEach f (packEach f as).1 = packEach f as := by
  induction as with
  | nil => rfl
  | cons a rest ih =>
    cases ha : f a with
    | error e => simp only [packEach, ha]
    | ok b => simp only [packEach, ha, hf a b ha, ih]

theorem each_packEach {f : Action → Except ClientError Action} {R : Action → Action → Prop}
    (hrefl : ∀ a, R a a) (hf : ∀ a b, f a = .ok b → R a b) (as : List Action) :
    Result.Each R as (packEach f as).1 := by
  have hsame (as : List Action) : Result.Each R as as := by
    have heach := Result.Each.map (f := id) (g := id) hrefl as
    rwa [List.map_id] at heach
  induction as with
  | nil => exact .nil
  | cons a rest ih =>
    cases ha : f a with
    | error e =>
      simp only [packEach, ha]
      exact hsame (a :: rest)
    | ok b =>
      simp only [packEach, ha]
      exact .cons (hf a b ha) ih

variable {store : AbiStore}

theorem packed_of_isPacked {a : Action} (h : a.isPacked = true) : packed config store a = .ok a :=
  if_pos h

theorem isPacked_of_packed (h : packed config store a = .ok b) : b.isPacked = true := by
  by_cases ha : a.isPacked = true
  · cases (packed_of_isPacked ha).symm.trans h
    exact ha
  · rw [packed, if_neg ha] at h
    obtain ⟨document, -, h⟩ := Result.bind_eq_ok.mp h
    rw [packedBy] at h
    split at h
    · rename_i hdata
      cases h
      rw [Action.isPacked, Action.packed?, hdata]
      rfl
    · obtain ⟨bs, -, h⟩ := Result.bind_eq_ok.mp h
      cases h
      rfl

theorem isSupplied_iff : IsSupplied d ↔
    ∀ a ∈ d.transaction.allActions, a.isPacked = true ∨ d.store.contains a.account = true := by
  simp only [IsSupplied, Transaction.unpackedAccounts, List.mem_map, List.mem_filter]
  constructor
  · intro h a ha
    cases hpacked : a.isPacked with
    | true => exact .inl rfl
    | false => exact .inr (h a.account ⟨a, ⟨ha, by rw [hpacked]; rfl⟩, rfl⟩)
  · rintro h account ⟨a, ⟨ha, hpacked⟩, rfl⟩
    rcases h a ha with hpacked' | hstored
    · rw [hpacked'] at hpacked
      cases hpacked
    · exact hstored

theorem packActions_of_isSupplied (h : IsSupplied d) : packActions config d =
    ending (packEach (packed config d.store) d.transaction.allActions).2 (packing config d) :=
  if_neg fun hmissing => hmissing (AbiStore.missing_eq_nil.mpr h)

theorem packActions_of_not_isSupplied (h : ¬IsSupplied d) :
    packActions config d = .error (.missingAbis d.missing) d :=
  if_pos (mt AbiStore.missing_eq_nil.mp h)

theorem allActions_packing (config : Abi.Config) (d : Draft) :
    (packing config d).transaction.allActions =
      (packEach (packed config d.store) d.transaction.allActions).1 :=
  d.transaction.allActions_withAllActions _

theorem IsSupplied.packing (h : IsSupplied d) : IsSupplied (packing config d) := by
  have heach := each_packEach (f := packed config d.store)
    (R := fun a b => b = a ∨ b.isPacked = true) (fun _ => .inl rfl)
    (fun _ _ hb => .inr (isPacked_of_packed hb)) d.transaction.allActions
  rw [isSupplied_iff] at h ⊢
  rw [allActions_packing]
  intro b hb
  obtain ⟨a, ha, hab⟩ := heach.mem hb
  rcases hab with rfl | hpacked
  · exact h b ha
  · exact .inl hpacked

theorem length_packEach (f : Action → Except ClientError Action) (as : List Action) :
    (packEach f as).1.length = as.length :=
  (each_packEach (R := fun _ _ => True) (fun _ => trivial) (fun _ _ _ => trivial) as).length_eq.symm

theorem withAllActions_packing (config : Abi.Config) (d : Draft) (as : List Action) :
    (packing config d).transaction.withAllActions as = d.transaction.withAllActions as :=
  Transaction.withAllActions_withAllActions (length_packEach _ _) as

theorem packEach_packing (config : Abi.Config) (d : Draft) :
    packEach (packed config (packing config d).store) (packing config d).transaction.allActions =
      packEach (packed config d.store) d.transaction.allActions := by
  rw [allActions_packing]
  apply packEach_again
  intro a b hb
  exact packed_of_isPacked (isPacked_of_packed hb)

theorem packing_packing (config : Abi.Config) (d : Draft) :
    packing config (packing config d) = packing config d := by
  rw [packing, packEach_packing, withAllActions_packing]
  rfl

theorem resumes_packActions (config : Abi.Config) :
    Resumes (packActions config) (packActions config) := by
  refine ⟨id, ?_⟩
  intro d
  by_cases hd : IsSupplied d
  · rw [packActions_of_isSupplied hd, final_ending, packActions_of_isSupplied hd.packing,
      packing_packing, packEach_packing]
  · rw [packActions_of_not_isSupplied hd, final, packActions_of_not_isSupplied hd]

theorem preserves_packActions (config : Abi.Config) :
    Preserves (fun d => d.transaction.withAllActions []) (packActions config) := by
  intro d
  by_cases hd : IsSupplied d
  · rw [packActions_of_isSupplied hd, final_ending]
    exact withAllActions_packing config d []
  · rw [packActions_of_not_isSupplied hd, final]

theorem hasReferences_congr (h : t.withAllActions [] = t'.withAllActions []) :
    HasReferences k t ↔ HasReferences k t' := by
  change HasReferences k (t.withAllActions []) ↔ HasReferences k (t'.withAllActions [])
  rw [h]

/-- A preparation that stopped half way is resumed by one that knows more. -/
theorem resumes_prepare (config : Abi.Config) (h : k.IsWithin k') :
    Resumes (prepare config k) (prepare config k') := by
  -- What follows the references changes the actions alone.
  have hbehind : Preserves (fun d => d.transaction.withAllActions [])
      (fetchMissing config k >>= fun _ => packActions config) := by
    apply ((preserves_fetchMissing config k).comp fun t => t.withAllActions []).bind
    exact fun _ => preserves_packActions config
  have hpayloads := Resumes.bind (settles_fetchMissing config h) (resumes_packActions config) <| by
    intro d hd
    rw [packActions_of_isSupplied hd, final_ending]
    exact hd.packing
  apply Resumes.bind (settles_fillReferences h) hpayloads
  intro d hd
  exact (hasReferences_congr (hbehind d)).mpr hd

end Draft
end ChainKit
