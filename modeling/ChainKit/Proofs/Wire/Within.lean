import ChainKit.Proofs.Wire.Delimiting

namespace ChainKit.Wire
set_option autoImplicit true

/-- Whether a read that has `n` bytes at most before it gives values with a property, and leaves no
more bytes than that. -/
def Within (n : Nat) (x : EStateM ε Reader α) (P : α → Prop) : Prop :=
  ∀ r a r', r.remaining ≤ n → x r = .ok a r' → r'.remaining ≤ n ∧ P a

theorem Reader.LeadsTo.remaining_le {r r' : Reader} (h : r.LeadsTo r') :
    r'.remaining ≤ r.remaining := by
  obtain ⟨used, hrest, -⟩ := h
  rw [remaining, remaining, hrest, List.length_append]
  exact Nat.le_add_left _ _

namespace Within

theorem pure {P : α → Prop} (h : P a) : Within (ε := ε) n (Pure.pure a) P := by
  intro r b r' hn hr
  cases hr
  exact ⟨hn, h⟩

theorem throw (e : ε) (P : α → Prop) : Within n (throw e : EStateM ε Reader α) P := by
  intro r a r' hn hr
  cases hr

theorem bind {x : EStateM ε Reader α} {f : α → EStateM ε Reader β} {P : α → Prop} {Q : β → Prop}
    (hx : Within n x P) (hf : ∀ a, P a → Within n (f a) Q) : Within n (x >>= f) Q := by
  intro r b r'' hn hr
  obtain ⟨a, r', hxr, hfr⟩ := bind_eq_ok hr
  obtain ⟨hn', ha⟩ := hx r a r' hn hxr
  exact hf a ha r' b r'' hn' hfr

theorem map {x : EStateM ε Reader α} {f : α → β} {P : α → Prop} {Q : β → Prop} (h : Within n x P)
    (hf : ∀ a, P a → Q (f a)) : Within n (x >>= fun a => Pure.pure (f a)) Q :=
  h.bind fun a ha => pure (hf a ha)

theorem position {f : Nat → EStateM ε Reader α} {P : α → Prop} (h : ∀ p, Within n (f p) P) :
    Within n ((do return (← get).position) >>= f) P := fun r => h r.position r

theorem adapt {x : EStateM ε Reader α} {P : α → Prop} (g : ε → ε') (h : Within n x P) :
    Within n (EStateM.adaptExcept g x) P := by
  intro r a r' hn hr
  simp only [EStateM.adaptExcept] at hr
  split at hr
  · cases hr
  · cases hr
    exact h r a r' hn ‹_›

theorem ite {c : Prop} [Decidable c] {x y : EStateM ε Reader α} {P : α → Prop}
    (hx : Within n x P) (hy : Within n y P) : Within n (if c then x else y) P := by
  split
  · exact hx
  · exact hy

theorem mono {x : EStateM ε Reader α} {P Q : α → Prop} (h : Within n x P)
    (hpq : ∀ a, P a → Q a) : Within n x Q := by
  intro r a r' hn hr
  obtain ⟨hn', ha⟩ := h r a r' hn hr
  exact ⟨hn', hpq a ha⟩

theorem of_delimits {x : EStateM ε Reader α} (h : Delimits x) : Within n x fun _ => True := by
  intro r a r' hn hr
  exact ⟨Nat.le_trans (h r a r' hr).1.remaining_le hn, trivial⟩

end Within
end ChainKit.Wire
