import ChainKit.Proofs.Session.Asking

namespace ChainKit
set_option autoImplicit true

/-- Whether nothing is open of chain id, expiration, reference block and payloads. -/
structure Transaction.IsPrepared (t : Transaction) : Prop where
  referenced : t.isReferenced = true
  packed : ∀ a ∈ t.allActions, a.isPacked = true

theorem Transaction.withAllActions_self (t : Transaction) : t.withAllActions t.allActions = t := by
  rw [withAllActions, allActions, List.take_left, List.drop_left]

namespace Session

variable {step : Action → Action.Op Action}

theorem updateEach_of_unchanged {as : List Action} (h : ∀ a ∈ as, ∀ c, step a c = .ok a c)
    (c : Abi.Context) : updateEach step as c = (as, .ok () c) := by
  induction as with
  | nil => rfl
  | cons a rest ih =>
    obtain ⟨ha, hrest⟩ := List.forall_mem_cons.mp h
    simp only [updateEach, ha c, ih hrest]

theorem updateActions_of_unchanged {s : Session}
    (h : ∀ a ∈ s.transaction.allActions, ∀ c, step a c = .ok a c) :
    updateActions step s = .ok () s := by
  simp only [updateActions, updateEach_of_unchanged h, Transaction.withAllActions_self]

theorem forall_of_updateEach {P : Action → Prop} (h : ∀ a c b c', step a c = .ok b c' → P b)
    (hupdate : updateEach step as c = (bs, .ok () c')) : ∀ b ∈ bs, P b := by
  induction as generalizing c bs with
  | nil =>
    cases hupdate
    exact fun _ => nofun
  | cons a rest ih =>
    rw [updateEach] at hupdate
    cases ha : step a c with
    | error e c₁ =>
      rw [ha] at hupdate
      cases hupdate
    | ok b c₁ =>
      rw [ha] at hupdate
      cases hrest : updateEach step rest c₁ with
      | mk bs' outcome =>
        simp only [hrest, Prod.mk.injEq] at hupdate
        obtain ⟨rfl, rfl⟩ := hupdate
        exact List.forall_mem_cons.mpr ⟨h a c b c₁ ha, ih hrest⟩

theorem isPacked_of_pack {d : Abi.Document} {a : Action} (h : a.pack d c = .ok b c') :
    b.isPacked = true := by
  rw [Action.pack] at h
  cases hdata : a.data with
  | packed bs =>
    rw [hdata] at h
    cases h
    rw [Action.isPacked, Action.packed?, hdata]
    rfl
  | json v =>
    rw [hdata] at h
    obtain ⟨bs, c₁, -, h⟩ := Wire.bind_eq_ok h
    cases h
    rfl

theorem updateActions_eq_ok (h : updateActions step s = .ok () s') :
    ∃ as c, updateEach step s.transaction.allActions s.context = (as, .ok () c) ∧
      s' = { s with context := c, transaction := s.transaction.withAllActions as } := by
  simp only [updateActions] at h
  cases hupdate : updateEach step s.transaction.allActions s.context with
  | mk as outcome =>
    rw [hupdate] at h
    cases outcome with
    | error e c => cases h
    | ok u c =>
      cases h
      exact ⟨as, c, rfl, rfl⟩

theorem packActions_eq_ok (h : packActions s = .ok () s') :
    ∃ as c, (∀ a ∈ as, a.isPacked = true) ∧
      s' = { s with context := c, transaction := s.transaction.withAllActions as } := by
  rw [packActions, get_bind] at h
  by_cases hmissing : s.missingAbis = []
  · rw [if_neg fun hne => hne hmissing] at h
    obtain ⟨as, c, hupdate, rfl⟩ := updateActions_eq_ok h
    refine ⟨as, c, forall_of_updateEach ?_ hupdate, rfl⟩
    intro a c b c' hstep
    split at hstep
    · rename_i hpacked
      cases hstep
      exact hpacked
    · obtain ⟨d, c₁, -, hpack⟩ := Wire.bind_eq_ok hstep
      exact isPacked_of_pack hpack
  · rw [if_pos hmissing] at h
    cases h

theorem fillReferences_eq_ok (h : fillReferences s = .ok () s') :
    s'.transaction.chainId.isSome = true := by
  obtain ⟨r, t, hreferences, -, -, hchain⟩ := fillReferences_cases s.context.config s
  obtain ⟨rfl, rfl⟩ := ending_eq_ok.mp (hreferences.symm.trans h)
  exact hchain rfl

theorem fetchEach_eq_ok (h : fetchEach accounts s = .ok () s') :
    s'.transaction = s.transaction := by
  obtain ⟨r, c, store, hfetch, -⟩ := fetchEach_cases s.transaction accounts (s := s) rfl rfl
  obtain ⟨-, rfl⟩ := ending_eq_ok.mp (hfetch.symm.trans h)
  rfl

theorem prepare_eq_ok (h : prepare s = .ok () s') :
    s'.transaction.chainId.isSome = true ∧ ∀ a ∈ s'.transaction.allActions, a.isPacked = true := by
  obtain ⟨⟨⟩, s₁, hreferences, h⟩ := Wire.bind_eq_ok h
  rw [get_bind] at h
  obtain ⟨⟨⟩, s₂, hfetch, h⟩ := Wire.bind_eq_ok h
  obtain ⟨as, c, hpacked, rfl⟩ := packActions_eq_ok h
  refine ⟨?_, ?_⟩
  · change s₂.transaction.chainId.isSome = true
    rw [fetchEach_eq_ok hfetch]
    exact fillReferences_eq_ok hreferences
  · rwa [Transaction.allActions_withAllActions]

theorem prepare_of_isPrepared (h : s.transaction.IsPrepared) : prepare s = .ok () s := by
  have hreferences : fillReferences s = .ok () s := by
    rw [fillReferences, get_bind, if_pos (of_decide_eq_true h.referenced)]
    rfl
  have hmissing : s.missingAbis = [] := by
    apply List.eq_nil_iff_forall_not_mem.mpr
    intro account hmem
    obtain ⟨-, a, ha, hopen, -⟩ := mem_missingAbis.mp hmem
    rw [h.packed a ha] at hopen
    cases hopen
  have hpack : packActions s = .ok () s := by
    rw [packActions, get_bind, if_neg fun hne => hne hmissing]
    apply updateActions_of_unchanged
    intro a ha c
    rw [if_pos (h.packed a ha)]
    rfl
  rw [prepare, Wire.bind_ok hreferences, get_bind, hmissing]
  exact hpack

theorem serialize_of_isPrepared (h : s.transaction.IsPrepared)
    (hdepth : 5 ≤ s.context.config.maxDepth) (hfits : s.transaction.Fits) :
    ∃ bs, serialize s = .ok bs s := by
  obtain ⟨-, hexpiration, hmark⟩ := of_decide_eq_true h.referenced
  obtain ⟨bs, hbs⟩ := Transaction.exists_serialize hmark hexpiration h.packed hdepth hfits
  refine ⟨bs, ?_⟩
  rw [serialize, get_bind, inContext, hbs]

/-- A preparation that succeeds, and leaves a reference block and an expiration that are not zero,
is done: another one, at any node and in any context, succeeds without a call and changes nothing,
and the transaction packs if five nested values may be entered and its lengths take 32 bits. -/
theorem prepare_done (s s' : Session) (h : prepare s = .ok () s')
    (hmark : s'.transaction.refBlockMark ≠ 0) (hexpiration : s'.transaction.expiration.secs ≠ 0)
    (context : Abi.Context) (node : Node) :
    let again : Session := { s' with context, node }
    prepare again = .ok () again ∧
      (5 ≤ context.config.maxDepth → s'.transaction.Fits →
        ∃ bs, serialize again = .ok bs again) := by
  intro again
  obtain ⟨hchain, hpacked⟩ := prepare_eq_ok h
  have hprepared : again.transaction.IsPrepared :=
    ⟨decide_eq_true ⟨hchain, hexpiration, hmark⟩, hpacked⟩
  exact ⟨prepare_of_isPrepared hprepared, serialize_of_isPrepared hprepared⟩

def wrappingSession : Session where
  context := .new {}
  node := { fullNode with
    info := { fullNode.info with headBlockNum := 65539, headBlockTime := ⟨10000000⟩ }
    blocks := SortedMap.empty.insert 65536 ⟨65536, 5, .zero 32, .empty⟩ }
  store := .empty
  transaction := { openSession.transaction with policy := { expireSeconds := 0xffffffff } }

theorem prepare_done_wrapping :
    ∃ left, prepare wrappingSession = .ok () left ∧ left.transaction.refBlockNum = 0 ∧
      left.transaction.refBlockMark ≠ 0 ∧ left.transaction.expiration.secs ≠ 0 ∧
      prepare { left with node := openSession.node } =
        .ok () { left with node := openSession.node } := by
  have hsucceeds : (match prepare wrappingSession with
    | .ok _ left => left.transaction.refBlockNum = 0 && left.transaction.refBlockMark ≠ 0 &&
      left.transaction.expiration.secs ≠ 0
    | .error _ _ => false) = true := by decide +kernel
  cases hprepare : prepare wrappingSession with
  | error e left =>
    rw [hprepare] at hsucceeds
    cases hsucceeds
  | ok u left =>
    rw [hprepare] at hsucceeds
    simp only [Bool.and_eq_true, decide_eq_true_eq] at hsucceeds
    obtain ⟨⟨hnumber, hmark⟩, hexpiration⟩ := hsucceeds
    exact ⟨left, rfl, hnumber, hmark, hexpiration,
      (prepare_done _ left hprepare hmark hexpiration left.context openSession.node).1⟩

end Session
end ChainKit
