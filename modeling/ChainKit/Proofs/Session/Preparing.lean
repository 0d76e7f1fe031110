import ChainKit.Proofs.Abi.Context.Cached
import ChainKit.Proofs.Abi.Document.Stored
import ChainKit.Proofs.Session.Draft
import ChainKit.Proofs.Session.Signing

namespace ChainKit
set_option autoImplicit true

namespace Session

/-- Whether a context converts under given limits, and its contracts are what their documents
make. -/
structure IsUnder (config : Abi.Config) (c : Abi.Context) : Prop where
  config_eq : c.config = config
  sound : c.IsSound

/-- Whether an operation has the same result in each context under given limits, and leaves such a
context. -/
def Answers (config : Abi.Config) (op : EStateM ε Abi.Context α) (r : Except ε α) : Prop :=
  ∀ c, IsUnder config c → ∃ c', IsUnder config c' ∧ op c = ending r c'

namespace Answers

theorem pure (a : α) : Answers (ε := ε) config (Pure.pure a) (.ok a) := fun c hc => ⟨c, hc, rfl⟩

theorem throw (e : ε) : Answers (α := α) config (MonadExcept.throw e) (.error e) :=
  fun c hc => ⟨c, hc, rfl⟩

theorem bind {op : EStateM ε Abi.Context α} {f : α → EStateM ε Abi.Context β}
    {g : α → Except ε β} (h : Answers config op r) (hf : ∀ a, Answers config (f a) (g a)) :
    Answers config (op >>= f) (r >>= g) := by
  intro c hc
  obtain ⟨c', hc', hop⟩ := h c hc
  cases r with
  | error e => exact ⟨c', hc', Wire.bind_error hop⟩
  | ok a =>
    obtain ⟨c'', hc'', hfa⟩ := hf a c' hc'
    exact ⟨c'', hc'', (Wire.bind_ok hop).trans hfa⟩

theorem inContext {op : Abi.Context.Op α} (h : Answers config op r) :
    Answers config (Action.inContext op) (r.mapError .abi) := by
  intro c hc
  obtain ⟨c', hc', hop⟩ := h c hc
  refine ⟨c', hc', ?_⟩
  change EStateM.adaptExcept ClientError.abi op c = _
  simp only [EStateM.adaptExcept, hop]
  cases r <;> rfl

end Answers

theorem IsUnder.noting (h : IsUnder config c) (r : Except Abi.Error α) :
    IsUnder config (c.noting r) := by
  refine ⟨?_, h.sound.noting r⟩
  rw [← h.config_eq]
  cases r <;> rfl

theorem settle_eq_ending (r : Except Abi.Error α) (c : Abi.Context) :
    Abi.Context.settle r c = ending r c := by
  cases r <;> rfl

theorem answers_recorded {op : Abi.Context.Op α}
    (h : ∀ c, IsUnder config c → ∃ c', IsUnder config c' ∧ op c = Abi.Context.settle r c') :
    Answers config (Abi.Context.recorded op) r := by
  intro c hc
  obtain ⟨c', hc', hop⟩ := h c hc
  refine ⟨c'.noting r, hc'.noting r, ?_⟩
  rw [Abi.Context.settle_recorded hop, settle_eq_ending]

theorem answers_deserializeAbi (config : Abi.Config) (bs : Bytes) :
    Answers config (Abi.Context.deserializeAbi bs) (Abi.Document.unpack config bs) := by
  apply answers_recorded
  intro c hc
  refine ⟨c, hc, ?_⟩
  rw [Abi.Context.unpackDocument_apply, hc.config_eq]

theorem answers_serialize (config : Abi.Config) (contract : Name) (name json : String)
    (d : Abi.Document) : Answers config (Abi.Context.serialize contract name json d) (do
      let v ← Abi.Context.readValue name json
      let l ← Abi.Context.check d
      l.encode config (l.actionOrType name) v) := by
  apply answers_recorded
  intro c hc
  have hconvert := hc.sound.settle_convert (Abi.Context.parseValue_apply name json)
    (f := fun v l => Abi.Context.encodeWith l (l.actionOrType name) v)
    (g := fun v l => l.encode config (l.actionOrType name) v) (by
      intro v l c' hc'
      rw [Abi.Context.encodeWith_apply, hc', hc.config_eq]) contract d
  refine ⟨_, ⟨?_, hc.sound.put contract _⟩, hconvert⟩
  rw [Abi.Context.put_config, hc.config_eq]

theorem answers_insert (config : Abi.Config) (store : AbiStore) (account : Name) (abi : Bytes) :
    Answers config (store.insert account abi) (do
      let _ ← (Abi.Document.unpack config abi).mapError .abi
      return ⟨store.entries.insert account abi⟩) :=
  (answers_deserializeAbi config abi).inContext.bind fun _ => .pure _

theorem answers_document (config : Abi.Config) (store : AbiStore) (account : Name) :
    Answers config (store.document account) (Draft.document config store account) := by
  unfold AbiStore.document Draft.document
  cases store.find? account with
  | none => exact .throw _
  | some abi => exact (answers_deserializeAbi config abi).inContext

theorem answers_pack (config : Abi.Config) (d : Abi.Document) (a : Action) :
    Answers config (a.pack d) (Draft.packedBy config d a) := by
  unfold Action.pack Draft.packedBy
  cases a.data with
  | packed bs => exact .pure a
  | json v =>
    apply (answers_serialize config a.account a.name.text (Json.render v) d).inContext.bind
    exact fun bs => .pure _

theorem answers_packed (config : Abi.Config) (store : AbiStore) (a : Action) :
    Answers config (if a.isPacked then return a else do a.pack (← store.document a.account))
      (Draft.packed config store a) := by
  unfold Draft.packed
  split
  · exact .pure a
  · exact (answers_document config store a.account).bind fun d => answers_pack config d a

theorem answers_updateEach {step : Action → Action.Op Action}
    {f : Action → Except ClientError Action} (h : ∀ a, Answers config (step a) (f a))
    (as : List Action) (hc : IsUnder config c) : ∃ c', IsUnder config c' ∧
      updateEach step as c = ((Draft.packEach f as).1, ending (Draft.packEach f as).2 c') := by
  induction as generalizing c with
  | nil => exact ⟨c, hc, rfl⟩
  | cons a rest ih =>
    obtain ⟨c₁, hc₁, hstep⟩ := h a c hc
    cases ha : f a with
    | error e =>
      rw [ha] at hstep
      refine ⟨c₁, hc₁, ?_⟩
      simp only [updateEach, hstep, Draft.packEach, ha, ending]
    | ok b =>
      rw [ha] at hstep
      obtain ⟨c', hc', hrest⟩ := ih hc₁
      refine ⟨c', hc', ?_⟩
      simp only [updateEach, hstep, Draft.packEach, ha, ending, hrest]

def draft (s : Session) : Draft := ⟨s.store, s.transaction⟩

/-- Whether a session is under given limits, at a node of given knowledge. -/
structure IsAt (config : Abi.Config) (k : Knowledge) (s : Session) : Prop where
  context : IsUnder config s.context
  knowledge : s.node.knowledge = k

/-- What a result shows of the session that it leaves. -/
def drafted (r : EStateM.Result ClientError Session α) : EStateM.Result ClientError Draft α :=
  match r with
  | .ok a s => .ok a s.draft
  | .error e s => .error e s.draft

/-- Whether an operation has the same result in each session under given limits at a node of given
knowledge, and leaves such a session with its draft. -/
def Asks (config : Abi.Config) (k : Knowledge) (op : Op α) (r : Except ClientError α) : Prop :=
  ∀ s, IsAt config k s → ∃ s', IsAt config k s' ∧ s'.draft = s.draft ∧ op s = ending r s'

/-- Whether an operation does to the draft what a program does. -/
def Performs (config : Abi.Config) (k : Knowledge) (op : Op α)
    (p : EStateM ClientError Draft α) : Prop :=
  ∀ s, IsAt config k s → drafted (op s) = p s.draft ∧ IsAt config k (final (op s))

variable {config : Abi.Config} {k : Knowledge}

theorem asks_inContext {op : Action.Op α} (h : Answers config op r) :
    Asks config k (inContext op) r := by
  intro s hs
  obtain ⟨c', hc', hop⟩ := h s.context hs.context
  refine ⟨{ s with context := c' }, ⟨hc', hs.knowledge⟩, rfl, ?_⟩
  simp only [inContext, hop]
  cases r <;> rfl

theorem asks_atNode {op : Node.Op α}
    (h : ∀ n, n.knowledge = k → ∃ n', n'.knowledge = k ∧ op n = ending r n') :
    Asks config k (atNode op) r := by
  intro s hs
  obtain ⟨n', hn', hop⟩ := h s.node hs.knowledge
  refine ⟨{ s with node := n' }, ⟨hs.context, hn'⟩, rfl, ?_⟩
  simp only [atNode, hop]
  cases r <;> rfl

theorem bind_record (call : NodeCall) (f : Node → Node.Op α) (n : Node) :
    (Node.record call >>= fun _ => get >>= f) n =
      f { n with callsBackwards := call :: n.callsBackwards }
        { n with callsBackwards := call :: n.callsBackwards } := rfl

def known (answer? : Option α) (fault : NodeFault) : Except ClientError α :=
  match answer? with
  | some answer => .ok answer
  | none => .error (.node fault)

theorem Performs.pure (a : α) : Performs config k (Pure.pure a) (Pure.pure a) :=
  fun _ hs => ⟨rfl, hs⟩

theorem Performs.bind {op : Op α} {p : EStateM ClientError Draft α} {f : α → Op β}
    {g : α → EStateM ClientError Draft β} (h : Performs config k op p)
    (hf : ∀ a, Performs config k (f a) (g a)) : Performs config k (op >>= f) (p >>= g) := by
  intro s hs
  obtain ⟨hdrafted, hat⟩ := h s hs
  cases hop : op s with
  | error e s' =>
    rw [hop] at hdrafted hat
    rw [Wire.bind_error hop, Wire.bind_error hdrafted.symm]
    exact ⟨rfl, hat⟩
  | ok a s' =>
    rw [hop] at hdrafted hat
    rw [Wire.bind_ok hop, Wire.bind_ok hdrafted.symm]
    exact hf a s' hat

theorem asks_getInfo : Asks config k (atNode Node.getInfo) (.ok k.info) := by
  apply asks_atNode
  rintro n rfl
  exact ⟨{ n with callsBackwards := .info :: n.callsBackwards }, rfl, rfl⟩

theorem asks_getBlock (number : UInt32) : Asks config k (atNode (Node.getBlock number))
    (known (k.block? number) (.unknownBlock number)) := by
  apply asks_atNode
  rintro n rfl
  refine ⟨{ n with callsBackwards := .block number :: n.callsBackwards }, rfl, ?_⟩
  simp only [Node.getBlock, bind_record, Node.knowledge]
  cases n.blocks.find? number <;> rfl

theorem performs_fillChainId (info : NodeInfo) :
    Performs config k (fillChainId info) (Draft.fillChainId info) := by
  intro s hs
  rw [fillChainId, get_bind, Draft.fillChainId]
  cases hchain : s.draft.transaction.chainId with
  | none =>
    have hlacks : Draft.lacksChainId info s.draft = true := by simp [Draft.lacksChainId, hchain]
    rw [attempt_of_ok hlacks (by rw [Draft.withChainId, hchain])]
    change s.transaction.chainId = none at hchain
    simp only [hchain]
    exact ⟨rfl, hs.context, hs.knowledge⟩
  | some provided =>
    change s.transaction.chainId = some provided at hchain
    by_cases hsame : provided = info.chainId
    · have hlacks : Draft.lacksChainId info s.draft = false := by
        simp [Draft.lacksChainId, draft, hchain, hsame]
      rw [attempt_of_not_isOpen hlacks]
      simp only [hchain]
      rw [if_neg fun hne => hne hsame]
      exact ⟨rfl, hs⟩
    · have hlacks : Draft.lacksChainId info s.draft = true := by
        simp [Draft.lacksChainId, draft, hchain, hsame]
      rw [attempt_of_error hlacks (by rw [Draft.withChainId, draft, hchain])]
      simp only [hchain]
      rw [if_pos hsame]
      exact ⟨rfl, hs⟩

theorem performs_fillExpiration (info : NodeInfo) :
    Performs config k (fillExpiration info) (Draft.fillExpiration info) := by
  intro s hs
  rw [fillExpiration, get_bind, Draft.fillExpiration]
  by_cases hopen : s.transaction.expiration.secs = 0
  · have hlacks : Draft.lacksExpiration s.draft = true := decide_eq_true hopen
    rw [if_pos hopen]
    cases hexpiration : expirationAfter info.headBlockTime s.transaction.policy.expireSeconds with
    | error e =>
      rw [attempt_of_error hlacks (by rw [Draft.withExpiration, draft, hexpiration])]
      exact ⟨rfl, hs⟩
    | ok expiration =>
      rw [attempt_of_ok hlacks (by rw [Draft.withExpiration, draft, hexpiration])]
      exact ⟨rfl, hs.context, hs.knowledge⟩
  · have hlacks : Draft.lacksExpiration s.draft = false := decide_eq_false hopen
    rw [if_neg hopen, attempt_of_not_isOpen hlacks]
    exact ⟨rfl, hs⟩

theorem performs_fillReference :
    Performs config k (fillReference k.info) (Draft.fillReference k) := by
  intro s hs
  rw [fillReference, get_bind, Draft.fillReference]
  by_cases hopen : s.transaction.refBlockMark = 0
  · have hlacks : Draft.lacksReference s.draft = true := decide_eq_true hopen
    have hnumber : referenceNumber k.info.headBlockNum s.transaction.policy.blocksBehind =
      Draft.referenceNumber k.info s.draft.transaction := rfl
    rw [if_pos hopen, hnumber]
    obtain ⟨s', hs', hdraft, hask⟩ :=
      asks_getBlock (Draft.referenceNumber k.info s.draft.transaction) s hs
    cases hblock : k.block? (Draft.referenceNumber k.info s.draft.transaction) with
    | none =>
      rw [hblock, known] at hask
      rw [Wire.bind_error hask, attempt_of_error hlacks (by rw [Draft.withReference, hblock]),
        ← hdraft]
      exact ⟨rfl, hs'⟩
    | some b =>
      rw [hblock, known] at hask
      rw [Wire.bind_ok hask, attempt_of_ok hlacks (by rw [Draft.withReference, hblock]), ← hdraft]
      exact ⟨rfl, hs'.context, hs'.knowledge⟩
  · have hlacks : Draft.lacksReference s.draft = false := decide_eq_false hopen
    rw [if_neg hopen, attempt_of_not_isOpen hlacks]
    exact ⟨rfl, hs⟩

theorem performs_fillReferences : Performs config k fillReferences (Draft.fillReferences k) := by
  have hfills : Performs config k _ (Draft.fillChainId k.info >>= fun _ =>
      Draft.fillExpiration k.info >>= fun _ => Draft.fillReference k) :=
    (performs_fillChainId k.info).bind fun _ =>
      (performs_fillExpiration k.info).bind fun _ => performs_fillReference
  intro s hs
  rw [fillReferences, get_bind, Draft.fillReferences]
  by_cases hdone : s.transaction.chainId.isSome ∧ s.transaction.expiration.secs ≠ 0 ∧
      s.transaction.refBlockMark ≠ 0
  · have hreferenced : Draft.isReferenced s.draft = true := decide_eq_true hdone
    rw [if_pos hdone, unlessDone_of_isDone hreferenced]
    exact ⟨rfl, hs⟩
  · have hreferenced : Draft.isReferenced s.draft = false := decide_eq_false hdone
    obtain ⟨s', hs', hdraft, hask⟩ := asks_getInfo s hs
    rw [if_neg hdone, unlessDone_of_not_isDone hreferenced, Wire.bind_ok hask, ← hdraft]
    exact hfills s' hs'

theorem asks_getRawAbi (account : Name) : Asks config k (atNode (Node.getRawAbi account))
    (known (k.abi? account) (.unknownAccount account)) := by
  apply asks_atNode
  rintro n rfl
  refine ⟨{ n with callsBackwards := .rawAbi account :: n.callsBackwards }, rfl, ?_⟩
  simp only [Node.getRawAbi, bind_record, Node.knowledge]
  cases n.abis.find? account <;> rfl

theorem performs_insert (account : Name) (abi : Bytes) :
    Performs config k (do
        let store ← inContext ((← get).store.insert account abi)
        modify fun s => { s with store })
      (attempt (fun _ => true) (Draft.stored config account abi)) := by
  intro s hs
  obtain ⟨s', hs', hdraft, hinsert⟩ :=
    asks_inContext (answers_insert config s.store account abi) s hs
  rw [get_bind]
  cases hdocument : Abi.Document.unpack config abi with
  | error e =>
    rw [hdocument] at hinsert
    have hstored : Draft.stored config account abi s.draft = .error (.abi e) := by
      rw [Draft.stored, hdocument]
      rfl
    rw [Wire.bind_error hinsert, attempt_of_error rfl hstored, ← hdraft]
    exact ⟨rfl, hs'⟩
  | ok document =>
    rw [hdocument] at hinsert
    have hstored : Draft.stored config account abi s.draft =
        .ok ⟨⟨s.store.entries.insert account abi⟩, s.transaction⟩ := by
      rw [Draft.stored, hdocument]
      rfl
    have htransaction : s'.transaction = s.transaction := congrArg Draft.transaction hdraft
    rw [Wire.bind_ok hinsert, attempt_of_ok rfl hstored, ← htransaction]
    exact ⟨rfl, hs'.context, hs'.knowledge⟩

theorem performs_fetchAbi (account : Name) :
    Performs config k (fetchAbi account)
      (attempt (fun _ => true) (Draft.fetched config k account)) := by
  intro s hs
  obtain ⟨s', hs', hdraft, hask⟩ := asks_getRawAbi account s hs
  rw [fetchAbi, ← hdraft]
  cases hanswer : k.abi? account with
  | none =>
    rw [hanswer, known] at hask
    rw [Wire.bind_error hask, attempt_of_error rfl (by rw [Draft.fetched, hanswer])]
    exact ⟨rfl, hs'⟩
  | some answer =>
    rw [hanswer, known] at hask
    rw [Wire.bind_ok hask]
    by_cases hhash : Hash.sha256 answer.abi = answer.abiHash
    · have hinsert := performs_insert account answer.abi s' hs'
      simp only [attempt, Draft.fetched, hanswer, ne_eq, hhash, not_true, if_false]
      exact hinsert
    · simp only [attempt, Draft.fetched, hanswer, ne_eq, hhash, not_false_eq_true, if_true]
      exact ⟨rfl, hs'⟩

theorem performs_fetchEach (accounts : List Name) :
    Performs config k (fetchEach accounts)
      (Draft.fetchEach config k (fun _ _ => true) accounts) := by
  induction accounts with
  | nil => exact .pure ()
  | cons account rest ih => exact (performs_fetchAbi account).bind fun _ => ih

theorem performs_fetchMissing :
    Performs config k (get >>= fun s => fetchEach s.missingAbis) (Draft.fetchMissing config k) := by
  intro s hs
  rw [get_bind, Draft.fetchMissing, ← Draft.fetchEach_missing]
  exact performs_fetchEach s.missingAbis s hs

theorem performs_updateActions {step : Action → Action.Op Action}
    {f : Action → Except ClientError Action} (h : ∀ a, Answers config (step a) (f a)) :
    Performs config k (updateActions step) fun d =>
      ending (Draft.packEach f d.transaction.allActions).2 (d.withTransaction
        (d.transaction.withAllActions (Draft.packEach f d.transaction.allActions).1)) := by
  intro s hs
  obtain ⟨c', hc', hupdate⟩ := answers_updateEach h s.transaction.allActions hs.context
  simp only [updateActions, hupdate, draft]
  cases hpacking : (Draft.packEach f s.transaction.allActions).2 with
  | error e => exact ⟨rfl, hc', hs.knowledge⟩
  | ok u => exact ⟨rfl, hc', hs.knowledge⟩

theorem performs_packActions : Performs config k packActions (Draft.packActions config) := by
  intro s hs
  rw [packActions, get_bind]
  by_cases hmissing : s.missingAbis = []
  · have hsupplied : Draft.IsSupplied s.draft := AbiStore.missing_eq_nil.mp hmissing
    rw [if_neg (fun hne => hne hmissing), Draft.packActions_of_isSupplied hsupplied]
    exact performs_updateActions (answers_packed config s.store) s hs
  · have hsupplied : ¬Draft.IsSupplied s.draft := mt AbiStore.missing_eq_nil.mpr hmissing
    rw [if_pos hmissing, Draft.packActions_of_not_isSupplied hsupplied]
    exact ⟨rfl, hs⟩

theorem performs_prepare : Performs config k prepare (Draft.prepare config k) :=
  performs_fillReferences.bind fun _ => performs_fetchMissing.bind fun _ => performs_packActions

theorem final_drafted (r : EStateM.Result ClientError Session α) :
    final (drafted r) = (final r).draft := by
  cases r <;> rfl

theorem IsAt.withNode (hs : IsAt config k s) (n : Node) :
    IsAt config n.knowledge { s with node := n } := ⟨hs.context, rfl⟩

/-- A preparation goes on from where another one stopped, at a node that knows less. -/
theorem drafted_prepare_final (hs : IsAt config k s) (h : k.IsWithin n.knowledge) :
    drafted (prepare { final (prepare s) with node := n }) =
      drafted (prepare { s with node := n }) := by
  obtain ⟨hdrafted, hat⟩ := performs_prepare s hs
  have hleft : (final (prepare s)).draft = final (Draft.prepare config k s.draft) := by
    rw [← final_drafted, hdrafted]
  calc drafted (prepare { final (prepare s) with node := n })
    _ = Draft.prepare config n.knowledge (final (prepare s)).draft :=
      (performs_prepare _ (hat.withNode n)).1
    _ = Draft.prepare config n.knowledge s.draft := by
      rw [hleft]
      exact (Draft.resumes_prepare config h).resumes s.draft
    _ = drafted (prepare { s with node := n }) := (performs_prepare _ (hs.withNode n)).1.symm

/-- The session behind preparations at one node after the other. -/
def prepared (s : Session) (nodes : List Node) : Session :=
  nodes.foldl (fun s n => final (prepare { s with node := n })) s

/-- However often a preparation was tried at nodes that know less, the last one decides. -/
theorem drafted_prepare_prepared (hs : IsAt config k s) (nodes : List Node)
    (h : ∀ m ∈ nodes, m.knowledge.IsWithin n.knowledge) :
    drafted (prepare { prepared s nodes with node := n }) =
      drafted (prepare { s with node := n }) := by
  induction nodes generalizing k s with
  | nil => rfl
  | cons m rest ih =>
    rw [List.forall_mem_cons] at h
    have hat := (performs_prepare _ (hs.withNode m)).2
    exact (ih hat h.2).trans (drafted_prepare_final (hs.withNode m) h.1)

/-- A preparation that failed and is tried again, with a node that answers all that the first one
does and maybe more, ends as if it had been tried with that node at once: with the same outcome, the
same schemas and the same transaction. -/
theorem prepare_again (config : Abi.Config) (os : List Abi.Context.Operation) (node node' : Node)
    (store : AbiStore) (transaction : Transaction)
    (h : node.knowledge.IsWithin node'.knowledge) :
    let context := (Abi.Context.run Abi.Context.step (.new config) os).2
    ∀ e failed, prepare ⟨context, node, store, transaction⟩ = .error e failed →
      drafted (prepare { failed with node := node' }) =
        drafted (prepare ⟨context, node', store, transaction⟩) := by
  intro context e failed hfailed
  have hreached := Abi.Context.shows_run config os
  have hat : IsAt config node.knowledge ⟨context, node, store, transaction⟩ :=
    ⟨⟨hreached.config_eq, hreached.sound⟩, rfl⟩
  have hagain := drafted_prepare_final hat h
  rwa [hfailed] at hagain

def openSession : Session where
  context := .new {}
  node := (Node.new (.zero 32) 100 ⟨0⟩).withBlock 97 5
  store := .empty
  transaction := { actions := [⟨⟨1⟩, ⟨0x3d29100000000000⟩, [], .json (.bool true)⟩] }

def fullNode : Node :=
  openSession.node.withAbi ⟨1⟩ Abi.Context.samplePacked (Hash.sha256 Abi.Context.samplePacked)

theorem knowledge_openSession : openSession.node.knowledge.IsWithin fullNode.knowledge where
  info := rfl
  block? := id
  abi? := by
    intro account answer h
    cases h

theorem prepare_again_unknownAccount :
    openSession.node.knowledge.IsWithin fullNode.knowledge ∧
    prepare openSession =
      .error (.node (.unknownAccount ⟨1⟩)) (final (prepare openSession)) ∧
    drafted (prepare { final (prepare openSession) with node := fullNode }) =
      drafted (prepare { openSession with node := fullNode }) ∧
    (final (prepare { openSession with node := fullNode })).transaction.actions.map Action.packed? =
      [some [1]] := by
  have hfailed : prepare openSession =
      .error (.node (.unknownAccount ⟨1⟩)) (final (prepare openSession)) := rfl
  refine ⟨knowledge_openSession, hfailed, ?_, by decide +kernel⟩
  exact prepare_again {} [] openSession.node fullNode .empty openSession.transaction
    knowledge_openSession _ _ hfailed

end Session
end ChainKit
