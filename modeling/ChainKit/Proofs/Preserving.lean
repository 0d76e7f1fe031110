namespace ChainKit
set_option autoImplicit true

/-- The state that a program leaves, also if it fails. -/
def final : EStateM.Result ε σ α → σ
  | .ok _ s => s
  | .error _ s => s

/-- A result that leaves a state as it is. -/
def ending (r : Except ε α) (s : σ) : EStateM.Result ε σ α :=
  match r with
  | .ok a => .ok a s
  | .error e => .error e s

theorem final_ending (r : Except ε α) (s : σ) : final (ending r s) = s := by
  cases r <;> rfl

theorem ending_eq_ok {r : Except ε α} : ending r s = .ok a s' ↔ r = .ok a ∧ s' = s := by
  cases r with
  | error e => exact ⟨nofun, nofun⟩
  | ok b =>
    constructor
    · rintro ⟨⟩
      exact ⟨rfl, rfl⟩
    · rintro ⟨⟨⟩, rfl⟩
      rfl

theorem ending_eq_error {r : Except ε α} : ending r s = .error e s' ↔ r = .error e ∧ s' = s := by
  cases r with
  | ok b => exact ⟨nofun, nofun⟩
  | error e' =>
    constructor
    · rintro ⟨⟩
      exact ⟨rfl, rfl⟩
    · rintro ⟨⟨⟩, rfl⟩
      rfl

/-- A program behind another one leaves what it leaves of what that left, if it is run. -/
theorem final_bind_cases (x : EStateM ε σ α) (y : EStateM ε σ β) (s : σ) :
    final ((x >>= fun _ => y) s) = final (x s) ∨
      final ((x >>= fun _ => y) s) = final (y (final (x s))) := by
  change final (EStateM.bind x (fun _ => y) s) = _ ∨ final (EStateM.bind x (fun _ => y) s) = _
  cases hx : x s with
  | ok a s' =>
    simp only [EStateM.bind, hx]
    exact .inr rfl
  | error e s' =>
    simp only [EStateM.bind, hx]
    exact .inl rfl

theorem final_discard (x : EStateM ε σ α) (s : σ) :
    final ((x >>= fun _ => pure ()) s) = final (x s) := by
  rcases final_bind_cases x (pure ()) s with h | h
  · exact h
  · exact h

/-- Whether a program leaves what is seen of the state as it was. -/
def Preserves (view : σ → β) (x : EStateM ε σ α) : Prop := ∀ s, view (final (x s)) = view s

namespace Preserves

variable {view : σ → β}

theorem pure (a : α) : Preserves view (Pure.pure a : EStateM ε σ α) := fun _ => rfl

theorem throw (e : ε) : Preserves view (MonadExcept.throw e : EStateM ε σ α) := fun _ => rfl

theorem get : Preserves view (MonadState.get : EStateM ε σ σ) := fun _ => rfl

theorem modify {f : σ → σ} (h : ∀ s, view (f s) = view s) :
    Preserves view (modify f : EStateM ε σ PUnit) := h

theorem bind {x : EStateM ε σ α} {f : α → EStateM ε σ γ} (h : Preserves view x)
    (hf : ∀ a, Preserves view (f a)) : Preserves view (x >>= f) := by
  intro s
  have hs := h s
  change view (final (EStateM.bind x f s)) = _
  cases hx : x s with
  | ok a s' =>
    rw [hx] at hs
    simp only [EStateM.bind, hx]
    exact (hf a s').trans hs
  | error e s' =>
    rw [hx] at hs
    simp only [EStateM.bind, hx]
    exact hs

theorem comp {x : EStateM ε σ α} (h : Preserves view x) (f : β → γ) :
    Preserves (fun s => f (view s)) x := fun s => congrArg f (h s)

theorem ite {p : Prop} [Decidable p] {x y : EStateM ε σ α} (hx : Preserves view x)
    (hy : Preserves view y) : Preserves view (if p then x else y) := by
  split
  · exact hx
  · exact hy

end Preserves
end ChainKit
