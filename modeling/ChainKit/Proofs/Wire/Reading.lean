import ChainKit.Wire.Reader

namespace ChainKit.Wire
set_option autoImplicit true

/-- Whether a read turns `bs`, with `rest` behind it, into a value and stops before `rest`. -/
def Reads (r : EStateM ε Reader α) (bs : Bytes) (a : α) (rest : Bytes) : Prop :=
  ∀ p, r ⟨p, bs ++ rest⟩ = .ok a ⟨p + bs.length, rest⟩

/-- Whether each success takes bytes that are related to the value. -/
def Takes (r : EStateM ε Reader α) (P : Bytes → α → Prop) : Prop :=
  ∀ s a s', r s = .ok a s' → ∃ used, s.rest = used ++ s'.rest ∧ P used a

theorem bind_ok {x : EStateM ε σ α} {f : α → EStateM ε σ β} (h : x s = .ok a s') :
    (x >>= f) s = f a s' := by
  simp only [bind, EStateM.bind, h]

theorem bind_error {x : EStateM ε σ α} {f : α → EStateM ε σ β} (h : x s = .error e s') :
    (x >>= f) s = .error e s' := by
  simp only [bind, EStateM.bind, h]

theorem bind_eq_ok {x : EStateM ε σ α} {f : α → EStateM ε σ β} (h : (x >>= f) s = .ok b s'') :
    ∃ a s', x s = .ok a s' ∧ f a s' = .ok b s'' := by
  simp only [bind, EStateM.bind] at h
  split at h
  · exact ⟨_, _, ‹_›, h⟩
  · cases h

theorem eq_ok_of_run' {x : EStateM ε σ α} (h : x.run' s = some a) : ∃ s', x s = .ok a s' := by
  delta EStateM.run' EStateM.run at h
  cases hx : x s with
  | ok b s' =>
    rw [hx] at h
    cases h
    exact ⟨s', rfl⟩
  | error e s' =>
    rw [hx] at h
    cases h

namespace Reads

theorem pure (a : α) (rest : Bytes) : Reads (ε := ε) (Pure.pure a) [] a rest := fun _ => rfl

theorem bind {f : α → EStateM ε Reader β} (hx : Reads x bs a (bs' ++ rest))
    (hf : Reads (f a) bs' b rest) : Reads (x >>= f) (bs ++ bs') b rest := by
  intro p
  rw [List.append_assoc, bind_ok (hx p), hf, List.length_append, Nat.add_assoc]

theorem check {f : α → EStateM ε Reader β} (hx : Reads x bs a rest)
    (hf : Reads (f a) [] b rest) : Reads (x >>= f) bs b rest := by
  have h := Reads.bind hx hf
  rwa [List.append_nil] at h

theorem map {f : α → β} (h : Reads x bs a rest) :
    Reads (x >>= fun a => Pure.pure (f a)) bs (f a) rest := fun p => by
  rw [bind_ok (h p)]
  rfl

theorem position {f : Nat → EStateM ε Reader α} (h : ∀ n, Reads (f n) bs a rest) :
    Reads ((do return (← get).position) >>= f) bs a rest := fun p => h p p

theorem adapt (g : ε → ε') (h : Reads x bs a rest) :
    Reads (EStateM.adaptExcept g x) bs a rest := fun p => by
  simp only [EStateM.adaptExcept, h p]

theorem eq_of_ok (h : Reads r bs a rest) (hs : r ⟨p, bs ++ rest⟩ = .ok b s') :
    b = a ∧ s'.rest = rest := by
  rw [h p] at hs
  cases hs
  exact ⟨rfl, rfl⟩

theorem unique (h : Reads r bs a rest) (h' : Reads r bs' a' rest')
    (he : bs ++ rest = bs' ++ rest') : a = a' ∧ rest = rest' := by
  have hp := h 0
  rw [he, h' 0] at hp
  simp only [EStateM.Result.ok.injEq, Reader.mk.injEq] at hp
  exact ⟨hp.1.symm, hp.2.2.symm⟩

end Reads

namespace Takes

theorem pure {a : α} (h : P [] a) : Takes (ε := ε) (Pure.pure a) P := by
  intro s b s' hs
  cases hs
  exact ⟨[], rfl, h⟩

theorem bind {f : α → EStateM ε Reader β} (hx : Takes x P)
    (hf : ∀ used a, P used a → Takes (f a) fun used' b => Q (used ++ used') b) :
    Takes (x >>= f) Q := by
  intro s b s'' h
  obtain ⟨a, s', hxs, hfs⟩ := bind_eq_ok h
  obtain ⟨used, hused, hp⟩ := hx s a s' hxs
  obtain ⟨used', hused', hq⟩ := hf used a hp s' b s'' hfs
  exact ⟨used ++ used', by rw [hused, hused', List.append_assoc], hq⟩

theorem map {f : α → β} (h : Takes x P) (hf : ∀ used a, P used a → Q used (f a)) :
    Takes (x >>= fun a => Pure.pure (f a)) Q := by
  refine h.bind fun used a hp => pure ?_
  rw [List.append_nil]
  exact hf used a hp

theorem position {f : Nat → EStateM ε Reader α} (h : ∀ n, Takes (f n) P) :
    Takes ((do return (← get).position) >>= f) P := fun s => h s.position s

theorem throw (e : ε) : Takes (throw e : EStateM ε Reader α) P := by
  intro s a s' h
  cases h

theorem mono (h : Takes r P) (hpq : ∀ used a, P used a → Q used a) : Takes r Q := by
  intro s a s' hs
  obtain ⟨used, hused, hp⟩ := h s a s' hs
  exact ⟨used, hused, hpq used a hp⟩

theorem adapt (g : ε → ε') (h : Takes r P) : Takes (EStateM.adaptExcept g r) P := by
  intro s a s' hs
  simp only [EStateM.adaptExcept] at hs
  split at hs
  · cases hs
  · cases hs
    exact h s a s' ‹_›

end Takes

namespace Read

theorem reads_bytes (bs rest : Bytes) : Reads (bytes bs.length) bs bs rest := fun p => by
  simp [bytes, Reader.advance]

theorem takes_bytes (n : Nat) : Takes (bytes n) fun used bs => used = bs ∧ bs.length = n := by
  intro s bs s' h
  simp only [bytes] at h
  split at h
  · rename_i hlen
    cases h
    exact ⟨_, (List.take_append_drop n s.rest).symm, rfl, hlen⟩
  · cases h

theorem reads_blob (b : Blob n) (rest : Bytes) : Reads (blob n) b.bytes b rest := fun p => by
  have hlen := b.length_eq
  have htake : (b.bytes ++ rest).take n = b.bytes := List.take_left' hlen
  have hdrop : (b.bytes ++ rest).drop n = rest := List.drop_left' hlen
  simp only [blob, htake, Blob.ofBytes?_bytes, Reader.advance, hdrop, hlen]

theorem takes_blob (n : Nat) : Takes (blob n) fun used b => used = b.bytes := by
  intro s b s' h
  simp only [blob] at h
  split at h
  · rename_i hb
    cases h
    refine ⟨_, (List.take_append_drop n s.rest).symm, ?_⟩
    exact (Blob.ofBytes?_eq_some.mp hb).symm
  · cases h

theorem reads_byte (b : UInt8) (rest : Bytes) : Reads byte [b] b rest :=
  (reads_bytes [b] rest).map

theorem takes_byte : Takes byte fun used b => used = [b] := by
  refine (takes_bytes 1).map ?_
  rintro used bs ⟨rfl, hlen⟩
  obtain ⟨b, rfl⟩ := List.length_eq_one_iff.mp hlen
  rfl

theorem reads_nat (bs rest : Bytes) : Reads (nat bs.length) bs (Bytes.toNatLE bs) rest :=
  (reads_bytes bs rest).map

theorem reads_ofNatLE (h : n < 256 ^ width) (rest : Bytes) :
    Reads (nat width) (Bytes.ofNatLE width n) n rest := by
  have hr := reads_nat (Bytes.ofNatLE width n) rest
  rwa [Bytes.length_ofNatLE, Bytes.toNatLE_ofNatLE, Nat.mod_eq_of_lt h] at hr

theorem takes_nat (width : Nat) :
    Takes (nat width) fun used n => used = Bytes.ofNatLE width n ∧ n < 256 ^ width := by
  refine (takes_bytes width).map ?_
  rintro used bs ⟨rfl, rfl⟩
  exact ⟨(Bytes.ofNatLE_toNatLE used).symm, Bytes.toNatLE_lt used⟩

end Read
end ChainKit.Wire
