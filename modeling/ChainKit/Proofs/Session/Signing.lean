import ChainKit.Proofs.Abi.Context.Operation
import ChainKit.Proofs.Bytes.Hex
import ChainKit.Proofs.Preserving
import ChainKit.Proofs.Transaction.Packed
import ChainKit.Session
import Mathlib.Data.List.Induction

namespace ChainKit
set_option autoImplicit true

namespace Session

/-- What a client does with a transaction. Only signing and sending touch the signed transaction and
the id that was reported, and only sending reaches the node. -/
inductive Operation where
  /-- Adds actions or extensions or changes fields. -/
  | edit (change : Transaction → Transaction)
  /-- Changes what is around the transaction, except for what the node was sent. -/
  | move (context : Abi.Context) (store : AbiStore) (node : Node)
  | packActions
  | unpackActions
  | prepare
  | sign (signer : Signer)
  | signWithKeys (signer : Signer) (keys : List PublicKey)
  | broadcast

namespace Operation

def perform : Operation → Op Unit
  | edit change => modifyTransaction fun t =>
    { change t with signed := t.signed, reportedId := t.reportedId }
  | move context store node => modify fun s =>
    { s with context, store, node := { node with pushedBackwards := s.node.pushedBackwards } }
  | packActions => Session.packActions
  | unpackActions => Session.unpackActions
  | prepare => Session.prepare
  | sign signer => do let _ ← Session.sign signer
  | signWithKeys signer keys => do let _ ← Session.signWithKeys signer keys
  | broadcast => do let _ ← Session.broadcast

/-- The signer that is asked by an operation, and the keys it is asked to sign with. -/
def asked? : Operation → Option (Signer × List PublicKey)
  | sign signer => signer.keys.toOption.map fun keys => (signer, keys)
  | signWithKeys signer keys => some (signer, keys)
  | _ => none

end Operation

/-- The outcome of an operation, and the session behind it. -/
def step (s : Session) (o : Operation) : Except ClientError Unit × Session :=
  match o.perform s with
  | .ok () s => (.ok (), s)
  | .error e s => (.error e, s)

def after (s : Session) (os : List Operation) : Session := (Abi.Context.run step s os).2

/-- A session of which nothing is signed or sent yet. -/
def fresh (s : Session) : Session :=
  { s with
    node := { s.node with pushedBackwards := [] }
    transaction := { s.transaction with signed := none, reportedId := none } }

/-- Whether a signed transaction is what one call of a signer gave for what the transaction is
packed as. -/
structure IsSigning (s : Session) (signer : Signer) (keys : List PublicKey)
    (x : SignedTransaction) : Prop where
  packed : ∃ c, s.transaction.serialize s.context = .ok x.packed c
  signatures : ∃ chainId, s.transaction.chainId = some chainId ∧
    signer.sign ⟨chainId, x.packed, keys⟩ = .ok x.signatures
  nonempty : x.signatures ≠ []

/-- Whether an operation signs the transaction, and with what outcome. -/
structure Signs (s : Session) (o : Operation) (x : SignedTransaction) : Prop where
  succeeds : (step s o).1 = .ok ()
  signed : (step s o).2.transaction.signed = some x
  asked : ∃ signer keys, o.asked? = some (signer, keys) ∧ s.IsSigning signer keys x

/-- What was signed, reported and sent so far. -/
structure Standing where
  signed : Option SignedTransaction
  reportedId : Option Checksum256
  pushedBackwards : List PushRequest

def standing (s : Session) : Standing :=
  ⟨s.transaction.signed, s.transaction.reportedId, s.node.pushedBackwards⟩

theorem get_bind (f : Session → Op α) (s : Session) : (get >>= f) s = f s s := rfl

theorem preserves_inContext (op : Action.Op α) : Preserves standing (inContext op) := by
  intro s
  rw [inContext]
  cases op s.context <;> rfl

theorem preserves_atNode {op : Node.Op α} (h : Preserves Node.pushedBackwards op) :
    Preserves standing (atNode op) := by
  intro s
  have hn : _ = s.node.pushedBackwards := h s.node
  rw [atNode]
  cases hop : op s.node with
  | ok a n =>
    rw [hop] at hn
    simp only [final, standing, ← hn]
  | error e n =>
    rw [hop] at hn
    simp only [final, standing, ← hn]

theorem preserves_modifyTransaction {f : Transaction → Transaction}
    (h : ∀ t, (f t).signed = t.signed ∧ (f t).reportedId = t.reportedId) :
    Preserves standing (modifyTransaction f) := by
  apply Preserves.modify
  intro s
  obtain ⟨hsigned, hreported⟩ := h s.transaction
  simp only [standing, hsigned, hreported]

theorem preserves_updateActions (f : Action → Action.Op Action) :
    Preserves standing (updateActions f) := by
  intro s
  simp only [updateActions]
  split <;> rfl

theorem preserves_packActions : Preserves standing packActions := by
  apply Preserves.get.bind
  intro s
  have hupdate := preserves_updateActions
  exact .ite ((Preserves.throw _).bind fun _ => hupdate _) (hupdate _)

theorem preserves_unpackActions : Preserves standing unpackActions :=
  Preserves.get.bind fun _ => preserves_updateActions _

theorem preserves_record (call : NodeCall) : Preserves Node.pushedBackwards (Node.record call) :=
  .modify fun _ => rfl

theorem preserves_getInfo : Preserves Node.pushedBackwards Node.getInfo :=
  (preserves_record _).bind fun _ => Preserves.get.bind fun _ => .pure _

theorem preserves_getBlock (number : UInt32) :
    Preserves Node.pushedBackwards (Node.getBlock number) := by
  apply (preserves_record _).bind
  intro _
  apply Preserves.get.bind
  intro n
  split
  · exact .pure _
  · exact .throw _

theorem preserves_getRawAbi (account : Name) :
    Preserves Node.pushedBackwards (Node.getRawAbi account) := by
  apply (preserves_record _).bind
  intro _
  apply Preserves.get.bind
  intro n
  split
  · exact .pure _
  · exact .throw _

theorem preserves_fillChainId (info : NodeInfo) : Preserves standing (fillChainId info) := by
  apply Preserves.get.bind
  intro s
  split
  · exact preserves_modifyTransaction fun _ => ⟨rfl, rfl⟩
  · exact .ite (.throw _) (.pure ())

theorem preserves_fillExpiration (info : NodeInfo) : Preserves standing (fillExpiration info) := by
  apply Preserves.get.bind
  intro s
  apply Preserves.ite
  · split
    · exact preserves_modifyTransaction fun _ => ⟨rfl, rfl⟩
    · exact .throw _
  · exact .pure ()

theorem preserves_fillReference (info : NodeInfo) : Preserves standing (fillReference info) := by
  apply Preserves.get.bind
  intro s
  apply Preserves.ite
  · apply (preserves_atNode (preserves_getBlock _)).bind
    exact fun _ => preserves_modifyTransaction fun _ => ⟨rfl, rfl⟩
  · exact .pure ()

theorem preserves_fillReferences : Preserves standing fillReferences := by
  apply Preserves.get.bind
  intro s
  apply Preserves.ite
  · exact .pure ()
  · apply (preserves_atNode preserves_getInfo).bind
    intro info
    apply (preserves_fillChainId info).bind
    intro _
    apply (preserves_fillExpiration info).bind
    exact fun _ => preserves_fillReference info

theorem preserves_fetchAbi (account : Name) : Preserves standing (fetchAbi account) := by
  apply (preserves_atNode (preserves_getRawAbi account)).bind
  intro answer
  have hinsert : Preserves standing (do
      let store ← inContext ((← get).store.insert account answer.abi)
      modify fun s => { s with store } : Op Unit) := by
    apply Preserves.get.bind
    intro s
    apply (preserves_inContext _).bind
    exact fun _ => .modify fun _ => rfl
  exact .ite ((Preserves.throw _).bind fun _ => hinsert) hinsert

theorem preserves_fetchEach (accounts : List Name) : Preserves standing (fetchEach accounts) := by
  induction accounts with
  | nil => exact .pure ()
  | cons account rest ih =>
    apply (preserves_fetchAbi account).bind
    exact fun _ => ih

theorem preserves_prepare : Preserves standing prepare := by
  apply preserves_fillReferences.bind
  intro _
  apply Preserves.get.bind
  intro s
  apply (preserves_fetchEach _).bind
  exact fun _ => preserves_packActions

/-- Signing with keys fails and changes nothing that was signed or sent, or it keeps what the signer
gave and forgets the id that was reported. -/
theorem signWithKeys_cases (signer : Signer) (keys : List PublicKey) (s : Session) :
    (∃ e s', signWithKeys signer keys s = .error e s' ∧ s'.standing = s.standing) ∨
    ∃ x s', signWithKeys signer keys s = .ok x s' ∧ s.IsSigning signer keys x ∧
      s'.standing = ⟨some x, none, s.node.pushedBackwards⟩ := by
  rw [signWithKeys, get_bind]
  cases hchain : s.transaction.chainId with
  | none => exact .inl ⟨_, _, rfl, rfl⟩
  | some chainId =>
    have hserialize : serialize s = inContext s.transaction.serialize s := rfl
    rw [inContext] at hserialize
    cases hpacked : s.transaction.serialize s.context with
    | error e c =>
      rw [hpacked] at hserialize
      exact .inl ⟨_, _, Wire.bind_error hserialize, rfl⟩
    | ok packed c =>
      rw [hpacked] at hserialize
      simp only [Wire.bind_ok hserialize]
      cases hsign : signer.sign ⟨chainId, packed, keys⟩ with
      | error e => exact .inl ⟨_, _, rfl, rfl⟩
      | ok signatures =>
        cases signatures with
        | nil => exact .inl ⟨_, _, rfl, rfl⟩
        | cons first rest =>
          have hsigning : s.IsSigning signer keys ⟨packed, first :: rest⟩ :=
            ⟨⟨c, hpacked⟩, ⟨chainId, hchain, hsign⟩, List.cons_ne_nil first rest⟩
          exact .inr ⟨_, _, rfl, hsigning, rfl⟩

theorem broadcast_cases (s : Session) :
    (∃ e, broadcast s = .error e s) ∨
    ∃ x answer s', s.transaction.signed = some x ∧ broadcast s = .ok answer s' ∧
      s'.standing = ⟨some x, some x.id, x.pushRequest :: s.node.pushedBackwards⟩ := by
  rw [broadcast, get_bind]
  cases hsigned : s.transaction.signed with
  | none => exact .inl ⟨_, rfl⟩
  | some x =>
    by_cases hx : x.signatures = []
    · simp only [hx, if_true]
      exact .inl ⟨_, rfl⟩
    · have hdecode : Hex.decode x.pushRequest.packedTransaction = .ok x.packed :=
        Hex.decode_encode x.packed
      simp only [hx, if_false, atNode, Node.push, Node.record, bind, EStateM.bind, hdecode]
      refine .inr ⟨x, _, _, rfl, rfl, ?_⟩
      simp only [standing, hsigned]
      rfl

theorem step_of_ok (h : Operation.perform o s = .ok () s') : step s o = (.ok (), s') := by
  rw [step, h]

theorem step_of_error (h : Operation.perform o s = .error e s') : step s o = (.error e, s') := by
  rw [step, h]

theorem step_final (s : Session) (o : Operation) : (step s o).2 = final (o.perform s) := by
  rw [step]
  cases o.perform s <;> rfl

theorem standing_step (o : Operation) (h : Preserves standing o.perform) (s : Session) :
    (step s o).2.standing = s.standing := by
  rw [step_final]
  exact h s

theorem step_signing (s : Session) (h : o.perform = (Operation.signWithKeys signer keys).perform)
    (hasked : o.asked? = some (signer, keys)) :
    (step s o).2.standing = s.standing ∨
    ∃ x, Signs s o x ∧ (step s o).2.standing = ⟨some x, none, s.node.pushedBackwards⟩ := by
  rcases signWithKeys_cases signer keys s with ⟨e, s', hs, hkept⟩ | ⟨x, s', hs, hsigning, hx⟩
  · have hperform : o.perform s = .error e s' := by
      rw [h, Operation.perform, Wire.bind_error hs]
    rw [step_of_error hperform]
    exact .inl hkept
  · have hperform : o.perform s = .ok () s' := by
      rw [h, Operation.perform, Wire.bind_ok hs]
      rfl
    have hstep := step_of_ok hperform
    have hsigned : s'.transaction.signed = some x := congrArg Standing.signed hx
    refine .inr ⟨x, ⟨?_, ?_, signer, keys, hasked, hsigning⟩, ?_⟩
    · rw [hstep]
    · rw [hstep, hsigned]
    · rw [hstep, hx]

/-- What an operation does to what is signed and sent: nothing, or it signs, or it sends what is
signed. -/
theorem step_cases (s : Session) (o : Operation) :
    (step s o).2.standing = s.standing ∨
    (∃ x, Signs s o x ∧ (step s o).2.standing = ⟨some x, none, s.node.pushedBackwards⟩) ∨
    (o = .broadcast ∧ (step s o).1 = .ok () ∧ ∃ x, s.transaction.signed = some x ∧
      (step s o).2.standing = ⟨some x, some x.id, x.pushRequest :: s.node.pushedBackwards⟩) := by
  cases o with
  | edit change =>
    have hkeeps : Preserves standing (Operation.edit change).perform :=
      preserves_modifyTransaction fun _ => ⟨rfl, rfl⟩
    exact .inl (standing_step _ hkeeps s)
  | move context store node =>
    exact .inl (standing_step (.move context store node) (.modify fun _ => rfl) s)
  | packActions => exact .inl (standing_step .packActions preserves_packActions s)
  | unpackActions => exact .inl (standing_step .unpackActions preserves_unpackActions s)
  | prepare => exact .inl (standing_step .prepare preserves_prepare s)
  | sign signer =>
    cases hkeys : signer.keys with
    | error e =>
      have hperform : (Operation.sign signer).perform s = .error e s := by
        simp only [Operation.perform, sign, hkeys]
        rfl
      rw [step_of_error hperform]
      exact .inl rfl
    | ok keys =>
      have hperform : (Operation.sign signer).perform =
          (Operation.signWithKeys signer keys).perform := by
        simp only [Operation.perform, sign, hkeys]
      have hasked : (Operation.sign signer).asked? = some (signer, keys) := by
        rw [Operation.asked?, hkeys]
        rfl
      rcases step_signing s hperform hasked with hkept | hsigns
      · exact .inl hkept
      · exact .inr (.inl hsigns)
  | signWithKeys signer keys =>
    rcases step_signing (o := .signWithKeys signer keys) s rfl rfl with hkept | hsigns
    · exact .inl hkept
    · exact .inr (.inl hsigns)
  | broadcast =>
    rcases broadcast_cases s with ⟨e, he⟩ | ⟨x, answer, s', hsigned, hs, hx⟩
    · have hperform : Operation.broadcast.perform s = .error e s := by
        rw [Operation.perform, Wire.bind_error he]
      rw [step_of_error hperform]
      exact .inl rfl
    · have hperform : Operation.broadcast.perform s = .ok () s' := by
        rw [Operation.perform, Wire.bind_ok hs]
        rfl
      rw [step_of_ok hperform]
      exact .inr (.inr ⟨rfl, rfl, x, hsigned, hx⟩)

theorem standing_of_error (h : (step s o).1 = .error e) :
    (step s o).2.standing = s.standing := by
  rcases step_cases s o with hkept | ⟨x, hsigns, -⟩ | ⟨-, hok, -⟩
  · exact hkept
  · cases hsigns.succeeds.symm.trans h
  · cases hok.symm.trans h

theorem after_append (s : Session) (os : List Operation) (o : Operation) :
    after s (os ++ [o]) = (step (after s os) o).2 := by
  rw [after, Abi.Context.run_append]
  rfl

/-- Whether one of the operations signed the transaction with that outcome. -/
def WasSigned (s : Session) (os : List Operation) (x : SignedTransaction) : Prop :=
  ∃ before o later, os = before ++ o :: later ∧ Signs (after s before) o x

/-- Whether one of the operations sent a request, for what was signed before it. -/
def WasSent (s : Session) (os : List Operation) (request : PushRequest) : Prop :=
  ∃ before later x, os = before ++ .broadcast :: later ∧ WasSigned s before x ∧
    request = x.pushRequest

theorem WasSigned.append (h : WasSigned s os x) (o : Operation) : WasSigned s (os ++ [o]) x := by
  obtain ⟨before, o', later, rfl, hsigns⟩ := h
  exact ⟨before, o', later ++ [o], List.append_assoc _ _ _, hsigns⟩

theorem WasSent.append (h : WasSent s os request) (o : Operation) :
    WasSent s (os ++ [o]) request := by
  obtain ⟨before, later, x, rfl, hsigned, hrequest⟩ := h
  exact ⟨before, later ++ [o], x, List.append_assoc _ _ _, hsigned, hrequest⟩

/-- What is known of what is signed and sent behind operations. -/
structure IsAccounted (s : Session) (os : List Operation) (now : Standing) : Prop where
  signed : ∀ x, now.signed = some x → WasSigned s os x
  reported : ∀ id, now.reportedId = some id → ∃ x, now.signed = some x ∧ id = x.id
  sent : ∀ request ∈ now.pushedBackwards, WasSent s os request

theorem IsAccounted.append (h : IsAccounted s os now) (o : Operation) :
    IsAccounted s (os ++ [o]) now where
  signed x hx := (h.signed x hx).append o
  reported := h.reported
  sent request hr := (h.sent request hr).append o

theorem isAccounted_step (h : IsAccounted s os (after s os).standing) (o : Operation) :
    IsAccounted s (os ++ [o]) (step (after s os) o).2.standing := by
  have hbefore := h.append o
  -- The three ways of a step: nothing of this changes, or one signs, or one sends.
  rcases step_cases (after s os) o with hkept | ⟨x, hsigns, hx⟩ | ⟨rfl, -, x, hsigned, hx⟩
  · rwa [hkept]
  · rw [hx]
    refine ⟨?_, nofun, hbefore.sent⟩
    rintro y ⟨⟩
    exact ⟨os, o, [], rfl, hsigns⟩
  · rw [hx]
    refine ⟨?_, ?_, ?_⟩
    · rintro y ⟨⟩
      exact hbefore.signed x hsigned
    · rintro id ⟨⟩
      exact ⟨x, rfl, rfl⟩
    · intro request hrequest
      rcases List.mem_cons.mp hrequest with rfl | hrequest
      · exact ⟨os, [], x, rfl, h.signed x hsigned, rfl⟩
      · exact hbefore.sent request hrequest

theorem isAccounted_run (s : Session) (os : List Operation) :
    IsAccounted s.fresh os (after s.fresh os).standing := by
  induction os using List.reverseRecOn with
  | nil => exact ⟨nofun, nofun, fun _ => nofun⟩
  | append_singleton os o ih =>
    rw [after_append]
    exact isAccounted_step ih o

/-- What the node was sent is what one earlier signing of the transaction gave, the id that is kept
is that of what is signed, and an operation that fails changes neither what is signed nor the
id. -/
theorem pushed_signed (s : Session) (os : List Operation) :
    (∀ request ∈ (after s.fresh os).node.pushed, ∃ before o between later x,
      os = before ++ o :: between ++ .broadcast :: later ∧ Signs (after s.fresh before) o x ∧
        request = x.pushRequest ∧ request.signatures = x.signatures ∧
        request.packedTransaction = Hex.encode x.packed) ∧
    (∀ id, (after s.fresh os).transaction.reportedId = some id →
      ∃ x, (after s.fresh os).transaction.signed = some x ∧ id = Hash.sha256 x.packed) ∧
    ∀ (t : Session) (o : Operation) (e : ClientError), (step t o).1 = .error e →
      (step t o).2.transaction.signed = t.transaction.signed ∧
      (step t o).2.transaction.reportedId = t.transaction.reportedId := by
  have haccounted := isAccounted_run s os
  refine ⟨?_, haccounted.reported, ?_⟩
  · intro request hrequest
    have hsent : request ∈ (after s.fresh os).node.pushedBackwards := List.mem_reverse.mp hrequest
    obtain ⟨_, later, x, hos, ⟨before, o, between, rfl, hsigns⟩, rfl⟩ :=
      haccounted.sent request hsent
    exact ⟨before, o, between, later, x, hos, hsigns, rfl, rfl, rfl⟩
  · intro t o e he
    have hkept := standing_of_error he
    exact ⟨congrArg Standing.signed hkept, congrArg Standing.reportedId hkept⟩

def sampleSigner : Signer where
  keys := .ok []
  sign _ := .ok [⟨.k1, .zero 65⟩]

def sampleSession : Session := ⟨.new {}, .new (.zero 32) 100 ⟨0⟩, .empty, .sample⟩

def sampleOperations : List Operation :=
  [.broadcast, .sign sampleSigner, .edit fun t => { t with delaySec := 7 }, .broadcast]

theorem pushed_signed_sample :
    (∃ x before o, (after sampleSession.fresh sampleOperations).node.pushed = [x.pushRequest] ∧
      Signs (after sampleSession.fresh before) o x) ∧
    (∃ id x, (after sampleSession.fresh sampleOperations).transaction.reportedId = some id ∧
      (after sampleSession.fresh sampleOperations).transaction.signed = some x ∧
      id = Hash.sha256 x.packed) ∧
    (step sampleSession .broadcast).2.transaction.signed = sampleSession.transaction.signed := by
  obtain ⟨hpushed, hreported, hfailing⟩ := pushed_signed sampleSession sampleOperations
  have hlength : (after sampleSession.fresh sampleOperations).node.pushed.length = 1 := by
    decide +kernel
  have hsome : (after sampleSession.fresh sampleOperations).transaction.reportedId.isSome := by
    decide +kernel
  refine ⟨?_, ?_, (hfailing sampleSession .broadcast .notSigned rfl).1⟩
  · obtain ⟨request, hrequest⟩ := List.length_eq_one_iff.mp hlength
    rw [hrequest] at hpushed ⊢
    obtain ⟨before, o, -, -, x, -, hsigns, rfl, -, -⟩ :=
      hpushed request (List.mem_singleton.mpr rfl)
    exact ⟨x, before, o, rfl, hsigns⟩
  · obtain ⟨id, hid⟩ := Option.isSome_iff_exists.mp hsome
    obtain ⟨x, hx, hhash⟩ := hreported id hid
    exact ⟨id, x, hid, hx, hhash⟩

theorem after_cons (s : Session) (o : Operation) (os : List Operation) :
    after s (o :: os) = after (step s o).2 os := rfl

theorem final_sign (signer : Signer) (s : Session) :
    (step s (.sign signer)).2 = final (sign signer s) :=
  (step_final s _).trans (final_discard _ s)

theorem final_broadcast (s : Session) : (step s .broadcast).2 = final (broadcast s) :=
  (step_final s _).trans (final_discard _ s)

/-- What is prepared, signed and sent in one call is what is so in three, up to the one that
fails. -/
theorem final_signAndBroadcast (signer : Signer) (s : Session) :
    ∃ os, os <+: [.prepare, .sign signer, .broadcast] ∧
      final (signAndBroadcast signer s) = after s os := by
  have hprepare : (step s .prepare).2 = final (prepare s) := step_final s .prepare
  rcases final_bind_cases prepare (sign signer >>= fun _ => broadcast) s with hall | hall
  · refine ⟨[.prepare], ⟨_, rfl⟩, ?_⟩
    rw [after_cons, hprepare]
    exact hall
  · rcases final_bind_cases (sign signer) broadcast (final (prepare s)) with hrest | hrest
    · refine ⟨[.prepare, .sign signer], ⟨_, rfl⟩, ?_⟩
      rw [after_cons, hprepare, after_cons, final_sign]
      exact hall.trans hrest
    · refine ⟨_, List.prefix_refl _, ?_⟩
      rw [after_cons, hprepare, after_cons, final_sign, after_cons, final_broadcast]
      exact hall.trans hrest

end Session
end ChainKit
