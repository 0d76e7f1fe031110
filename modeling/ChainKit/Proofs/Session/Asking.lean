import ChainKit.Proofs.Session.Preparing

namespace ChainKit
set_option autoImplicit true

/-- The entries of a list up to the first one that fails a test, with that one. -/
def upTo (p : α → Bool) : List α → List α
  | [] => []
  | a :: rest => if p a then a :: upTo p rest else [a]

section UpTo

variable {p : α → Bool}

theorem upTo_cons_of_pos (h : p a = true) (rest : List α) :
    upTo p (a :: rest) = a :: upTo p rest := if_pos h

theorem upTo_cons_of_neg (h : p a = false) (rest : List α) : upTo p (a :: rest) = [a] :=
  if_neg (by rw [h]; exact Bool.false_ne_true)

theorem upTo_singleton (p : α → Bool) (a : α) : upTo p [a] = [a] := by
  cases h : p a with
  | true => exact upTo_cons_of_pos h []
  | false => exact upTo_cons_of_neg h []

theorem upTo_of_all {as : List α} (h : as.all p = true) : upTo p as = as := by
  induction as with
  | nil => rfl
  | cons a rest ih =>
    rw [List.all_cons, Bool.and_eq_true] at h
    rw [upTo_cons_of_pos h.1, ih h.2]

theorem upTo_append_of_all {as : List α} (h : as.all p = true) (bs : List α) :
    upTo p (as ++ bs) = as ++ upTo p bs := by
  induction as with
  | nil => rfl
  | cons a rest ih =>
    rw [List.all_cons, Bool.and_eq_true] at h
    rw [List.cons_append, upTo_cons_of_pos h.1, ih h.2]
    rfl

theorem upTo_append_of_not_all {as : List α} (h : as.all p = false) (bs : List α) :
    upTo p (as ++ bs) = upTo p as := by
  induction as with
  | nil => cases h
  | cons a rest ih =>
    cases ha : p a with
    | false => rw [List.cons_append, upTo_cons_of_neg ha, upTo_cons_of_neg ha]
    | true =>
      rw [List.all_cons, ha, Bool.true_and] at h
      rw [List.cons_append, upTo_cons_of_pos ha, upTo_cons_of_pos ha, ih h]

theorem mem_of_mem_upTo {as : List α} (h : a ∈ upTo p as) : a ∈ as := by
  induction as with
  | nil => exact h
  | cons b rest ih =>
    cases hb : p b with
    | false =>
      rw [upTo_cons_of_neg hb, List.mem_singleton] at h
      exact h ▸ List.mem_cons_self
    | true =>
      rw [upTo_cons_of_pos hb, List.mem_cons] at h
      exact List.mem_cons.mpr (h.imp_right ih)

end UpTo

theorem idxOf_lt_of_filter {α : Type} [BEq α] [LawfulBEq α] {p : α → Bool} {l : List α} {x y : α}
    (hx : p x = true) (hy : p y = true) (h : (l.filter p).idxOf x < (l.filter p).idxOf y) :
    l.idxOf x < l.idxOf y := by
  induction l with
  | nil => exact h
  | cons a rest ih =>
    rw [List.filter_cons] at h
    grind

theorem idxOf_cons_of_ne {α : Type} [BEq α] [LawfulBEq α] {a b : α} (h : (!b == a) = true)
    (rest : List α) : (a :: rest).idxOf b = rest.idxOf b + 1 := by
  have hne : (a == b) = false := by
    rw [BEq.comm]
    simpa using h
  rw [List.idxOf_cons, hne, cond_false]

theorem pairwise_eraseDups {α : Type} [BEq α] [LawfulBEq α] (l : List α) :
    l.eraseDups.Pairwise fun x y => l.idxOf x < l.idxOf y := by
  match l with
  | [] => exact .nil
  | a :: rest =>
    have hrest := pairwise_eraseDups (rest.filter fun b => !b == a)
    rw [List.eraseDups_cons]
    apply List.Pairwise.cons
    · intro y hy
      have hya : (!y == a) = true := (List.mem_filter.mp (List.mem_eraseDups.mp hy)).2
      rw [List.idxOf_cons_self, idxOf_cons_of_ne hya]
      exact Nat.succ_pos _
    · apply hrest.imp_of_mem
      intro x y hx hy hlt
      have hxa := (List.mem_filter.mp (List.mem_eraseDups.mp hx)).2
      have hya := (List.mem_filter.mp (List.mem_eraseDups.mp hy)).2
      rw [idxOf_cons_of_ne hxa, idxOf_cons_of_ne hya]
      exact Nat.succ_lt_succ (idxOf_lt_of_filter hxa hya hlt)
termination_by l.length
decreasing_by exact Nat.lt_succ_of_le (List.length_filter_le _ _)

namespace AbiStore

theorem mem_missing {s : AbiStore} :
    account ∈ s.missing accounts ↔ account ∈ accounts ∧ s.find? account = none := by
  rw [missing, List.mem_eraseDups, List.mem_filter, contains, SortedMap.contains, find?]
  simp

theorem pairwise_missing (s : AbiStore) (accounts : List Name) :
    (s.missing accounts).Pairwise fun x y => accounts.idxOf x < accounts.idxOf y := by
  apply (pairwise_eraseDups _).imp_of_mem
  intro x y hx hy hlt
  have hlacks (account : Name) (h : account ∈ s.missing accounts) :
      (!s.contains account) = true := (List.mem_filter.mp (List.mem_eraseDups.mp h)).2
  exact idxOf_lt_of_filter (hlacks x hx) (hlacks y hy) hlt

end AbiStore

/-- Whether a packed schema has the declared digest and unpacks. -/
def RawAbi.isVerified (config : Abi.Config) (answer : RawAbi) : Bool :=
  Hash.sha256 answer.abi = answer.abiHash && (Abi.Document.unpack config answer.abi).isOk

/-- The packed schema that is known of an account, if it is verified. -/
def Knowledge.verifiedAbi? (k : Knowledge) (config : Abi.Config) (account : Name) : Option Bytes :=
  ((k.abi? account).filter (RawAbi.isVerified config)).map RawAbi.abi

def Node.asked (n : Node) (calls : List NodeCall) : Node :=
  { n with callsBackwards := calls.reverse ++ n.callsBackwards }

theorem Node.asked_asked (n : Node) (calls calls' : List NodeCall) :
    (n.asked calls).asked calls' = n.asked (calls ++ calls') := by
  rw [asked, asked, asked, List.reverse_append, List.append_assoc]

theorem Node.calls_asked (n : Node) (calls : List NodeCall) :
    (n.asked calls).calls = n.calls ++ calls := by
  rw [Node.calls, Node.calls, asked, List.reverse_append, List.reverse_reverse]

namespace Session

/-- Whether the chain id is open or is the node's. -/
def takesChainId (info : NodeInfo) (t : Transaction) : Bool :=
  t.chainId.all fun provided => provided = info.chainId

/-- Whether the expiration is set or can be: the second of the head must be a 32-bit number. -/
def takesTime (info : NodeInfo) (t : Transaction) : Bool :=
  let second := info.headBlockTime.micros.toInt / 1000000
  t.expiration.secs ≠ 0 || decide (0 ≤ second ∧ second < 2 ^ 32)

theorem isOk_expirationAfter (head : TimePoint) (seconds : UInt32) :
    (expirationAfter head seconds).isOk =
      decide (0 ≤ head.micros.toInt / 1000000 ∧ head.micros.toInt / 1000000 < 2 ^ 32) := by
  rw [expirationAfter, Time.word?]
  split
  · rename_i secs h
    split at h
    · rename_i hrange
      exact (decide_eq_true hrange).symm
    · cases h
  · rename_i h
    split at h
    · cases h
    · rename_i hrange
      exact (decide_eq_false hrange).symm

/-- The block number never wraps. -/
theorem toNat_referenceNumber (head behind : UInt32) :
    (referenceNumber head behind).toNat = max (head.toNat - behind.toNat) 1 := by
  have hhead := head.toNat_lt
  have hlt : max (head.toNat - behind.toNat) 1 < 2 ^ 32 := by omega
  exact UInt32.toNat_ofNat_of_lt' hlt

/-- Whether the preparation of a transaction goes on behind a call. -/
def accepts (config : Abi.Config) (k : Knowledge) (t : Transaction) : NodeCall → Bool
  | .info => takesChainId k.info t && takesTime k.info t
  | .block number => (k.block? number).isSome
  | .rawAbi account => (k.verifiedAbi? config account).isSome
  | .push => false

/-- The call that sets the reference block, if it is open. -/
def blockCalls (info : NodeInfo) (t : Transaction) : List NodeCall :=
  if t.refBlockMark = 0 then
    [.block (.ofNat (max (info.headBlockNum.toNat - t.policy.blocksBehind.toNat) 1))]
  else []

theorem upTo_blockCalls (p : NodeCall → Bool) (info : NodeInfo) (t : Transaction) :
    upTo p (blockCalls info t) = blockCalls info t := by
  rw [blockCalls]
  split
  · exact upTo_singleton p _
  · rfl

/-- The calls that set what is open of chain id, expiration and reference block. -/
def referenceCalls (info : NodeInfo) (t : Transaction) : List NodeCall :=
  if t.chainId.isSome ∧ t.expiration.secs ≠ 0 ∧ t.refBlockMark ≠ 0 then []
  else .info :: blockCalls info t

theorem rawAbi_notMem_referenceCalls (account : Name) (info : NodeInfo) (t : Transaction) :
    NodeCall.rawAbi account ∉ referenceCalls info t := by
  rw [referenceCalls, blockCalls]
  split
  · exact List.not_mem_nil
  · split <;> simp

/-- The calls that prepare a transaction. -/
def neededCalls (s : Session) : List NodeCall :=
  referenceCalls s.node.info s.transaction ++ s.missingAbis.map .rawAbi

theorem atNode_getInfo (s : Session) :
    atNode Node.getInfo s = .ok s.node.info { s with node := s.node.asked [.info] } := rfl

theorem atNode_getBlock (number : UInt32) (s : Session) :
    atNode (Node.getBlock number) s =
      ending (known (s.node.blocks.find? number) (.unknownBlock number))
        { s with node := s.node.asked [.block number] } := by
  simp only [atNode, Node.getBlock, bind_record]
  cases s.node.blocks.find? number <;> rfl

theorem atNode_getRawAbi (account : Name) (s : Session) :
    atNode (Node.getRawAbi account) s =
      ending (known (s.node.abis.find? account) (.unknownAccount account))
        { s with node := s.node.asked [.rawAbi account] } := by
  simp only [atNode, Node.getRawAbi, bind_record]
  cases s.node.abis.find? account <;> rfl

theorem fillChainId_cases (info : NodeInfo) (s : Session) :
    takesChainId info s.transaction = true ∧ fillChainId info s =
        .ok () { s with transaction := { s.transaction with chainId := some info.chainId } } ∨
      takesChainId info s.transaction = false ∧ ∃ e, fillChainId info s = .error e s := by
  rw [fillChainId, get_bind]
  cases hchain : s.transaction.chainId with
  | none => exact .inl ⟨by rw [takesChainId, hchain]; rfl, rfl⟩
  | some provided =>
    by_cases hsame : provided = info.chainId
    · refine .inl ⟨by simpa [takesChainId, hchain] using hsame, ?_⟩
      simp only [hsame, ne_eq, not_true, if_false]
      rw [← hsame, ← hchain]
      rfl
    · refine .inr ⟨by simpa [takesChainId, hchain] using hsame,
        .chainIdMismatch provided info.chainId, ?_⟩
      simp only [ne_eq, hsame, not_false_eq_true, if_true]
      rfl

theorem fillExpiration_cases (info : NodeInfo) (s : Session) :
    (takesTime info s.transaction = true ∧ ∃ expiration, fillExpiration info s =
        .ok () { s with transaction := { s.transaction with expiration } }) ∨
      takesTime info s.transaction = false ∧ ∃ e, fillExpiration info s = .error e s := by
  rw [fillExpiration, get_bind, takesTime,
    ← isOk_expirationAfter info.headBlockTime s.transaction.policy.expireSeconds]
  by_cases hopen : s.transaction.expiration.secs = 0
  · rw [if_pos hopen, decide_eq_false fun hset => hset hopen, Bool.false_or]
    cases expirationAfter info.headBlockTime s.transaction.policy.expireSeconds with
    | error e => exact .inr ⟨rfl, e, rfl⟩
    | ok expiration => exact .inl ⟨rfl, expiration, rfl⟩
  · rw [if_neg hopen, decide_eq_true hopen]
    exact .inl ⟨rfl, s.transaction.expiration, rfl⟩

theorem fillReference_cases (config : Abi.Config) (t : Transaction) (info : NodeInfo)
    (s : Session) : ∃ r number mark,
      fillReference info s = ending r { s with
        node := s.node.asked (blockCalls info s.transaction)
        transaction := { s.transaction with refBlockNum := number, refBlockMark := mark } } ∧
      r.isOk = (blockCalls info s.transaction).all (accepts config s.node.knowledge t) := by
  have hcalls : blockCalls info s.transaction =
    if s.transaction.refBlockMark = 0 then
      [.block (referenceNumber info.headBlockNum s.transaction.policy.blocksBehind)]
    else [] := rfl
  rw [fillReference, get_bind, hcalls]
  by_cases hopen : s.transaction.refBlockMark = 0
  · rw [if_pos hopen, if_pos hopen, List.all_cons, List.all_nil, Bool.and_true]
    have hask := atNode_getBlock
      (referenceNumber info.headBlockNum s.transaction.policy.blocksBehind) s
    simp only [accepts, Node.knowledge]
    cases hblock : s.node.blocks.find?
      (referenceNumber info.headBlockNum s.transaction.policy.blocksBehind) with
    | none =>
      rw [hblock] at hask
      exact ⟨.error _, s.transaction.refBlockNum, s.transaction.refBlockMark,
        Wire.bind_error hask, rfl⟩
    | some block =>
      rw [hblock] at hask
      exact ⟨.ok (), block.number.toUInt16, block.mark, Wire.bind_ok hask, rfl⟩
  · rw [if_neg hopen, if_neg hopen]
    exact ⟨.ok (), s.transaction.refBlockNum, s.transaction.refBlockMark, rfl, rfl⟩

theorem fillReferences_cases (config : Abi.Config) (s : Session) :
    let calls := referenceCalls s.node.info s.transaction
    let accepted := accepts config s.node.knowledge s.transaction
    ∃ r t, fillReferences s =
        ending r { s with node := s.node.asked (upTo accepted calls), transaction := t } ∧
      r.isOk = calls.all accepted ∧ t.allActions = s.transaction.allActions ∧
      (r.isOk = true → t.chainId.isSome = true) := by
  intro calls accepted
  rw [fillReferences, get_bind]
  by_cases hdone : s.transaction.chainId.isSome ∧ s.transaction.expiration.secs ≠ 0 ∧
      s.transaction.refBlockMark ≠ 0
  · have hcalls : calls = [] := if_pos hdone
    rw [if_pos hdone, hcalls]
    exact ⟨.ok (), s.transaction, rfl, rfl, rfl, fun _ => hdone.1⟩
  · have hcalls : calls = .info :: blockCalls s.node.info s.transaction := if_neg hdone
    have hinfo : accepted .info =
      (takesChainId s.node.info s.transaction && takesTime s.node.info s.transaction) := rfl
    have hrefused (h : accepted .info = false) :
        upTo accepted calls = [.info] ∧ calls.all accepted = false := by
      rw [hcalls, upTo_cons_of_neg h, List.all_cons, h]
      exact ⟨rfl, rfl⟩
    rw [if_neg hdone, Wire.bind_ok (atNode_getInfo s)]
    obtain ⟨htakes, hchain⟩ | ⟨htakes, e, hchain⟩ :=
      fillChainId_cases s.node.info { s with node := s.node.asked [.info] }
    · let t₁ := { s.transaction with chainId := some s.node.info.chainId }
      rw [Wire.bind_ok hchain]
      obtain ⟨htime, expiration, hexpiration⟩ | ⟨htime, e, hexpiration⟩ := fillExpiration_cases
        s.node.info { s with node := s.node.asked [.info], transaction := t₁ }
      · have haccepted : accepted .info = true :=
          hinfo.trans (Bool.and_eq_true_iff.mpr ⟨htakes, htime⟩)
        obtain ⟨r, number, mark, hreference, hok⟩ :=
          fillReference_cases config s.transaction s.node.info
            { s with node := s.node.asked [.info], transaction := { t₁ with expiration } }
        refine ⟨r, { t₁ with expiration, refBlockNum := number, refBlockMark := mark },
          ?_, ?_, rfl, fun _ => rfl⟩
        · rw [Wire.bind_ok hexpiration, hreference, Node.asked_asked, hcalls,
            upTo_cons_of_pos haccepted, upTo_blockCalls]
          rfl
        · rw [hok, hcalls, List.all_cons, haccepted, Bool.true_and]
          rfl
      · obtain ⟨hasked, hall⟩ := hrefused (hinfo.trans (Bool.and_eq_false_iff.mpr (.inr htime)))
        refine ⟨.error e, t₁, ?_, hall.symm, rfl, fun h => absurd h Bool.false_ne_true⟩
        rw [Wire.bind_error hexpiration, hasked]
        rfl
    · obtain ⟨hasked, hall⟩ := hrefused (hinfo.trans (Bool.and_eq_false_iff.mpr (.inl htakes)))
      refine ⟨.error e, s.transaction, ?_, hall.symm, rfl, fun h => absurd h Bool.false_ne_true⟩
      rw [Wire.bind_error hchain, hasked]
      rfl

theorem insert_ok {c : Abi.Context} (h : Abi.Document.unpack c.config abi = .ok d)
    (store : AbiStore) (account : Name) :
    store.insert account abi c = .ok ⟨store.entries.insert account abi⟩ c :=
  Wire.bind_ok (Transaction.inContext_eq_ok.mpr (Abi.Context.deserializeAbi_eq_ok.mpr ⟨h, rfl⟩))

theorem inContext_error {op : Abi.Context.Op α} (h : op c = .error e c') :
    Action.inContext op c = .error (.abi e) c' := by
  simp only [Action.inContext, EStateM.adaptExcept, h]

theorem insert_error {c : Abi.Context} (h : Abi.Document.unpack c.config abi = .error e)
    (store : AbiStore) (account : Name) :
    store.insert account abi c = .error (.abi e) { c with lastError := some e.message } := by
  have hunpack : Abi.Context.deserializeAbi abi c = _ :=
    Abi.Context.settle_recorded (Abi.Context.unpackDocument_apply abi)
  rw [h] at hunpack
  exact Wire.bind_error (inContext_error hunpack)

theorem insert_cases (store : AbiStore) (account : Name) (abi : Bytes) (c : Abi.Context) :
    (Abi.Document.unpack c.config abi).isOk = true ∧
        store.insert account abi c = .ok ⟨store.entries.insert account abi⟩ c ∨
      (Abi.Document.unpack c.config abi).isOk = false ∧
        ∃ e c', store.insert account abi c = .error e c' ∧ c'.config = c.config := by
  cases hunpack : Abi.Document.unpack c.config abi with
  | ok d => exact .inl ⟨rfl, insert_ok hunpack store account⟩
  | error e => exact .inr ⟨rfl, _, _, insert_error hunpack store account, rfl⟩

theorem verifiedAbi?_of_none {k : Knowledge} (h : k.abi? account = none) (config : Abi.Config) :
    k.verifiedAbi? config account = none := by
  rw [Knowledge.verifiedAbi?, h]
  rfl

theorem verifiedAbi?_of_some {k : Knowledge} (h : k.abi? account = some answer)
    (config : Abi.Config) : k.verifiedAbi? config account =
      if answer.isVerified config = true then some answer.abi else none := by
  rw [Knowledge.verifiedAbi?, h, Option.filter_some]
  split <;> rfl

theorem fetchAbi_cases (account : Name) (s : Session) :
    (∃ abi, s.node.knowledge.verifiedAbi? s.context.config account = some abi ∧
      fetchAbi account s = .ok () { s with
        node := s.node.asked [.rawAbi account]
        store := ⟨s.store.entries.insert account abi⟩ }) ∨
    s.node.knowledge.verifiedAbi? s.context.config account = none ∧
      ∃ e c, fetchAbi account s =
        .error e { s with context := c, node := s.node.asked [.rawAbi account] } ∧
        c.config = s.context.config := by
  have hask := atNode_getRawAbi account s
  rw [fetchAbi]
  cases hanswer : s.node.abis.find? account with
  | none =>
    rw [hanswer, known, ending] at hask
    exact .inr ⟨verifiedAbi?_of_none hanswer _, _, s.context, Wire.bind_error hask, rfl⟩
  | some answer =>
    rw [hanswer, known, ending] at hask
    rw [Wire.bind_ok hask, verifiedAbi?_of_some hanswer]
    by_cases hhash : Hash.sha256 answer.abi = answer.abiHash
    · rw [RawAbi.isVerified, decide_eq_true hhash, Bool.true_and]
      simp only [hhash, ne_eq, not_true, if_false, get_bind]
      obtain ⟨hunpacks, hinsert⟩ | ⟨hfails, e, c, hinsert, hc⟩ :=
        insert_cases s.store account answer.abi s.context
      · have hstore : inContext (s.store.insert account answer.abi)
            { s with node := s.node.asked [.rawAbi account] } =
            .ok ⟨s.store.entries.insert account answer.abi⟩
              { s with node := s.node.asked [.rawAbi account] } := by
          simp only [inContext, hinsert]
        refine .inl ⟨answer.abi, if_pos hunpacks, ?_⟩
        rw [Wire.bind_ok hstore]
        rfl
      · have hstore : inContext (s.store.insert account answer.abi)
            { s with node := s.node.asked [.rawAbi account] } =
            .error e { s with context := c, node := s.node.asked [.rawAbi account] } := by
          simp only [inContext, hinsert]
        refine .inr ⟨if_neg (by rw [hfails]; exact Bool.false_ne_true), e, c, ?_, hc⟩
        exact Wire.bind_error hstore
    · rw [RawAbi.isVerified, decide_eq_false hhash, Bool.false_and, if_neg Bool.false_ne_true]
      refine .inr ⟨rfl, .abiHashMismatch account answer.abiHash (Hash.sha256 answer.abi),
        s.context, ?_, rfl⟩
      simp only [ne_eq, hhash, not_false_eq_true, if_true]
      exact Wire.bind_error rfl

/-- The schema of an account behind calls: what is stored, or what was asked for and is
verified. -/
def stocked (config : Abi.Config) (k : Knowledge) (store : AbiStore) (calls : List NodeCall)
    (account : Name) : Option Bytes :=
  (if .rawAbi account ∈ calls then k.verifiedAbi? config account else none).or (store.find? account)

theorem stocked_insert {k : Knowledge} (h : k.verifiedAbi? config first = some abi)
    (store : AbiStore) (calls : List NodeCall) (account : Name) :
    stocked config k ⟨store.entries.insert first abi⟩ calls account =
      stocked config k store (.rawAbi first :: calls) account := by
  rw [stocked, stocked, AbiStore.find?, AbiStore.find?, SortedMap.find?_insert]
  by_cases hsame : first = account
  · rw [← hsame, if_pos rfl, if_pos List.mem_cons_self, h]
    split <;> rfl
  · have hcalls : NodeCall.rawAbi account ∈ NodeCall.rawAbi first :: calls ↔
        .rawAbi account ∈ calls := by
      simp [Ne.symm hsame]
    rw [if_neg fun hrank => hsame (Ranked.rank_inj hrank)]
    simp only [hcalls]

theorem stocked_of_none {k : Knowledge} (h : k.verifiedAbi? config first = none)
    (store : AbiStore) (account : Name) :
    stocked config k store [.rawAbi first] account = store.find? account := by
  rw [stocked]
  by_cases hsame : account = first
  · rw [hsame, h, ite_self, Option.none_or]
  · rw [if_neg (by simpa using hsame), Option.none_or]

theorem stocked_append {calls : List NodeCall} (h : .rawAbi account ∉ calls) (config : Abi.Config)
    (k : Knowledge) (store : AbiStore) (calls' : List NodeCall) :
    stocked config k store (calls ++ calls') account = stocked config k store calls' account := by
  simp only [stocked, List.mem_append, h, false_or]

theorem stocked_of_notMem {calls : List NodeCall} (h : .rawAbi account ∉ calls)
    (config : Abi.Config) (k : Knowledge) (store : AbiStore) :
    stocked config k store calls account = store.find? account := by
  rw [stocked, if_neg h, Option.none_or]

theorem fetchEach_cases (t : Transaction) (accounts : List Name) {s : Session}
    (hconfig : s.context.config = config) (hknown : s.node.knowledge = k) :
    let calls := accounts.map NodeCall.rawAbi
    let accepted := accepts config k t
    ∃ r c store, fetchEach accounts s =
        ending r ⟨c, s.node.asked (upTo accepted calls), store, s.transaction⟩ ∧
      r.isOk = calls.all accepted ∧ c.config = config ∧
      ∀ account, store.find? account = stocked config k s.store (upTo accepted calls) account := by
  induction accounts generalizing s with
  | nil => exact ⟨.ok (), s.context, s.store, rfl, rfl, hconfig, fun _ => rfl⟩
  | cons first rest ih =>
    intro calls accepted
    have hall : calls.all accepted =
      ((k.verifiedAbi? config first).isSome && (rest.map NodeCall.rawAbi).all accepted) := rfl
    have hfirst : accepted (.rawAbi first) = (k.verifiedAbi? config first).isSome := rfl
    obtain ⟨abi, habi, hfetch⟩ | ⟨hnone, e, c, hfetch, hc⟩ := fetchAbi_cases first s
    · rw [hconfig, hknown] at habi
      rw [habi, Option.isSome_some] at hfirst
      have hcalls : upTo accepted calls = .rawAbi first :: upTo accepted (rest.map .rawAbi) :=
        upTo_cons_of_pos hfirst _
      obtain ⟨r, c, store, hrest, hok, hc, hfind⟩ := @ih { s with
        node := s.node.asked [.rawAbi first]
        store := ⟨s.store.entries.insert first abi⟩ } hconfig hknown
      refine ⟨r, c, store, ?_, ?_, hc, ?_⟩
      · rw [fetchEach, Wire.bind_ok hfetch, hrest, Node.asked_asked, hcalls]
        rfl
      · rw [hok, hall, habi, Option.isSome_some, Bool.true_and]
      · intro account
        rw [hfind, hcalls]
        exact stocked_insert habi s.store _ account
    · rw [hconfig, hknown] at hnone
      rw [hnone, Option.isSome_none] at hfirst
      have hcalls : upTo accepted calls = [.rawAbi first] := upTo_cons_of_neg hfirst _
      refine ⟨.error e, c, s.store, ?_, ?_, hc.trans hconfig, ?_⟩
      · rw [fetchEach, Wire.bind_error hfetch, hcalls]
        rfl
      · rw [hall, hnone]
        rfl
      · intro account
        rw [hcalls, stocked_of_none hnone]

theorem preserves_outside_packActions : Preserves (fun s => (s.node, s.store)) packActions := by
  have hupdate (step : Action → Action.Op Action) :
      Preserves (fun s => (s.node, s.store)) (updateActions step) := by
    intro s
    simp only [updateActions]
    split <;> rfl
  apply Preserves.get.bind
  intro s
  exact .ite ((Preserves.throw _).bind fun _ => hupdate _) (hupdate _)

theorem missingAbis_congr {s s' : Session} (hstore : s'.store = s.store)
    (hactions : s'.transaction.allActions = s.transaction.allActions) :
    s'.missingAbis = s.missingAbis := by
  rw [missingAbis, missingAbis, hstore, hactions]

theorem prepare_cases (s : Session) :
    let config := s.context.config
    let k := s.node.knowledge
    let accepted := accepts config k s.transaction
    let asked := upTo accepted s.neededCalls
    (final (prepare s)).node = s.node.asked asked ∧
    (∀ account, (final (prepare s)).store.find? account = stocked config k s.store asked account) ∧
    ∀ s', prepare s = .ok () s' → s.neededCalls.all accepted = true := by
  intro config k accepted asked
  obtain ⟨r, t, hreferences, hok, hactions, -⟩ := fillReferences_cases config s
  cases r with
  | error e =>
    have hcalls : asked = upTo accepted (referenceCalls s.node.info s.transaction) :=
      upTo_append_of_not_all hok.symm _
    have hprepare : prepare s = _ := Wire.bind_error hreferences
    rw [hprepare, hcalls]
    refine ⟨rfl, ?_, nofun⟩
    intro account
    have hnot := rawAbi_notMem_referenceCalls account s.node.info s.transaction
    exact (stocked_of_notMem (fun hmem => hnot (mem_of_mem_upTo hmem)) config k s.store).symm
  | ok u =>
    have hall : (referenceCalls s.node.info s.transaction).all accepted = true := hok.symm
    rw [upTo_of_all hall] at hreferences
    have hcalls : asked = _ := upTo_append_of_all hall _
    let s₁ : Session := { s with
      node := s.node.asked (referenceCalls s.node.info s.transaction)
      transaction := t }
    have hmissing : s₁.missingAbis = s.missingAbis := missingAbis_congr rfl hactions
    have hprepare : prepare s = _ := Wire.bind_ok hreferences
    rw [get_bind, hmissing] at hprepare
    have hasked :
        s₁.node.asked (upTo accepted (s.missingAbis.map .rawAbi)) = s.node.asked asked := by
      rw [hcalls]
      exact Node.asked_asked s.node _ _
    have hconfig : s₁.context.config = config := rfl
    have hknown : s₁.node.knowledge = k := rfl
    obtain ⟨r, c, store, hfetch, hok, hc, hfind⟩ :=
      fetchEach_cases s.transaction s.missingAbis hconfig hknown
    rw [hasked] at hfetch
    have hstocked (account : Name) :
        store.find? account = stocked config k s.store asked account := by
      rw [hcalls, stocked_append (rawAbi_notMem_referenceCalls account _ _)]
      exact hfind account
    cases r with
    | error e =>
      have hfailed : prepare s = _ := hprepare.trans (Wire.bind_error hfetch)
      rw [hfailed]
      exact ⟨rfl, hstocked, nofun⟩
    | ok u =>
      have hpacks : prepare s = _ := hprepare.trans (Wire.bind_ok hfetch)
      have hkept := preserves_outside_packActions ⟨c, s.node.asked asked, store, t⟩
      rw [Prod.mk.injEq] at hkept
      rw [hpacks, hkept.1, hkept.2]
      refine ⟨rfl, hstocked, ?_⟩
      intro s' _
      rw [neededCalls, List.all_append, hall, ← hok]
      rfl

theorem mem_missingAbis {s : Session} : account ∈ s.missingAbis ↔ s.store.find? account = none ∧
    ∃ a ∈ s.transaction.allActions, a.isPacked = false ∧ a.account = account := by
  rw [missingAbis, AbiStore.mem_missing, and_comm]
  simp only [List.mem_map, List.mem_filter, Bool.not_eq_true', and_assoc]

theorem rawAbi_mem_neededCalls {s : Session} (h : .rawAbi account ∈ s.neededCalls) :
    account ∈ s.missingAbis := by
  rw [neededCalls, List.mem_append] at h
  have hmem := h.resolve_left (rawAbi_notMem_referenceCalls account _ _)
  obtain ⟨account', hmissing, hsame⟩ := List.mem_map.mp hmem
  cases hsame
  exact hmissing

/-- A preparation makes the calls that are needed up to the first one that it cannot go on from, and
fails if there is such a one. Behind it those schemas are stored that were, and of the accounts it
asked for those that are verified. The accounts that are asked for are those with an open payload
and without a schema, in the order in which they come up. -/
theorem prepare_asks (s : Session) :
    let accepted := accepts s.context.config s.node.knowledge s.transaction
    let asked := upTo accepted s.neededCalls
    let left := final (prepare s)
    left.node.calls = s.node.calls ++ asked ∧
    (∀ s', prepare s = .ok () s' → s.neededCalls.all accepted = true) ∧
    (∀ account, left.store.find? account = (s.store.find? account).or
      (if .rawAbi account ∈ asked then s.node.knowledge.verifiedAbi? s.context.config account
        else none)) ∧
    (∀ account, account ∈ s.missingAbis ↔ s.store.find? account = none ∧
      ∃ a ∈ s.transaction.contextFreeActions ++ s.transaction.actions,
        a.isPacked = false ∧ a.account = account) ∧
    s.missingAbis.Pairwise fun x y =>
      s.transaction.unpackedAccounts.idxOf x < s.transaction.unpackedAccounts.idxOf y := by
  intro accepted asked left
  obtain ⟨hnode, hfind, hok⟩ := prepare_cases s
  refine ⟨?_, hok, ?_, fun _ => mem_missingAbis, s.store.pairwise_missing _⟩
  · rw [hnode, Node.calls_asked]
  · intro account
    rw [hfind, stocked]
    cases hstored : s.store.find? account with
    | none => rw [Option.or_none, Option.none_or]
    | some abi =>
      -- What is stored is not asked for.
      have hnot : NodeCall.rawAbi account ∉ asked := by
        intro hmem
        have hmissing := rawAbi_mem_neededCalls (mem_of_mem_upTo hmem)
        rw [(mem_missingAbis.mp hmissing).1] at hstored
        cases hstored
      rw [if_neg hnot]
      rfl

def askingSession : Session where
  context := .new {}
  node := fullNode
  store := .empty
  transaction :=
    let open_ (account : Name) : Action :=
      ⟨account, ⟨0x3d29100000000000⟩, [], .json (.bool true)⟩
    { contextFreeActions := [open_ ⟨1⟩], actions := [open_ ⟨2⟩, open_ ⟨1⟩, open_ ⟨3⟩] }

theorem prepare_asks_unknownAccount :
    (final (prepare askingSession)).node.calls =
      [.info, .block 97, .rawAbi ⟨1⟩, .rawAbi ⟨2⟩] ∧
    (final (prepare askingSession)).store.find? ⟨1⟩ = some Abi.Context.samplePacked ∧
    (final (prepare askingSession)).store.find? ⟨3⟩ = none := by
  obtain ⟨hcalls, -, hstore, -⟩ := prepare_asks askingSession
  refine ⟨hcalls.trans ?_, (hstore ⟨1⟩).trans ?_, (hstore ⟨3⟩).trans ?_⟩
  · decide +kernel
  · decide +kernel
  · decide +kernel

end Session
end ChainKit
