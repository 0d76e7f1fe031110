import ChainKit.Proofs.Preserving
import ChainKit.Proofs.Wire.Reading

namespace ChainKit
set_option autoImplicit true

/-- Whether a program is resumed by another one: that one does all that the first one does, and from
what the first one leaves it ends as from the beginning. -/
structure Resumes (p p' : EStateM ε σ Unit) : Prop where
  covers : p s = .ok () s' → p' s = .ok () s'
  resumes : ∀ s, p' (final (p s)) = p' s

/-- Whether it is known too when there is nothing left to do. -/
structure Settles (p p' : EStateM ε σ Unit) (Done : σ → Prop) : Prop extends Resumes p p' where
  post : p s = .ok () s' → Done s'
  done : Done s → p' s = .ok () s

theorem Resumes.bind {p p' q q' : EStateM ε σ Unit} {Done : σ → Prop} (hp : Settles p p' Done)
    (hq : Resumes q q') (hkeep : ∀ s, Done s → Done (final (q s))) :
    Resumes (p >>= fun _ => q) (p' >>= fun _ => q') where
  covers := by
    intro s s' h
    obtain ⟨u, s₁, hs, hs'⟩ := Wire.bind_eq_ok h
    rw [Wire.bind_ok (hp.covers hs)]
    exact hq.covers hs'
  resumes := by
    intro s
    have hresumes := hp.resumes s
    cases hs : p s with
    | error e s₁ =>
      rw [hs] at hresumes
      rw [Wire.bind_error hs]
      change EStateM.bind p' _ s₁ = EStateM.bind p' _ s
      simp only [EStateM.bind, ← hresumes]
      rfl
    | ok u s₁ =>
      have hdone := hp.done (hkeep s₁ (hp.post hs))
      rw [Wire.bind_ok hs, Wire.bind_ok hdone, Wire.bind_ok (hp.covers hs)]
      exact hq.resumes s₁

namespace Settles

theorem pure : Settles (Pure.pure () : EStateM ε σ Unit) (Pure.pure ()) fun _ => True :=
  ⟨⟨id, fun _ => rfl⟩, fun _ => trivial, fun _ => rfl⟩

theorem mono {p p' : EStateM ε σ Unit} {Done Done' : σ → Prop} (h : Settles p p' Done)
    (hiff : ∀ s, Done s ↔ Done' s) : Settles p p' Done' :=
  ⟨h.toResumes, fun hs => (hiff _).mp (h.post hs), fun hs => h.done ((hiff _).mpr hs)⟩

theorem bind {p p' q q' : EStateM ε σ Unit} {Done Done' : σ → Prop} (hp : Settles p p' Done)
    (hq : Settles q q' Done') (hkeep : ∀ s, Done s → Done (final (q s))) :
    Settles (p >>= fun _ => q) (p' >>= fun _ => q') fun s => Done s ∧ Done' s where
  toResumes := .bind hp hq.toResumes hkeep
  post := by
    intro s s' h
    obtain ⟨u, s₁, hs, hs'⟩ := Wire.bind_eq_ok h
    have hkept := hkeep s₁ (hp.post hs)
    rw [hs'] at hkept
    exact ⟨hkept, hq.post hs'⟩
  done := by
    rintro s ⟨hs, hs'⟩
    rw [Wire.bind_ok (hp.done hs)]
    exact hq.done hs'

end Settles

/-- Fills in what is open, if it can be had. -/
def attempt (isOpen : σ → Bool) (fill : σ → Except ε σ) : EStateM ε σ Unit := fun s =>
  if isOpen s then
    match fill s with
    | .ok s' => .ok () s'
    | .error e => .error e s
  else .ok () s

variable {isOpen : σ → Bool} {fill fill' : σ → Except ε σ}

theorem attempt_of_not_isOpen (h : isOpen s = false) : attempt isOpen fill s = .ok () s := by
  simp only [attempt, h]
  rfl

theorem attempt_of_ok (hopen : isOpen s = true) (h : fill s = .ok s') :
    attempt isOpen fill s = .ok () s' := by
  simp only [attempt, hopen, h, if_true]

theorem attempt_of_error (hopen : isOpen s = true) (h : fill s = .error e) :
    attempt isOpen fill s = .error e s := by
  simp only [attempt, hopen, h, if_true]

theorem attempt_cases (isOpen : σ → Bool) (fill : σ → Except ε σ) (s : σ) :
    isOpen s = false ∧ attempt isOpen fill s = .ok () s ∨
    (∃ s', isOpen s = true ∧ fill s = .ok s' ∧ attempt isOpen fill s = .ok () s') ∨
    ∃ e, isOpen s = true ∧ fill s = .error e ∧ attempt isOpen fill s = .error e s := by
  cases hopen : isOpen s with
  | false => exact .inl ⟨rfl, attempt_of_not_isOpen hopen⟩
  | true =>
    cases hfill : fill s with
    | ok s' => exact .inr (.inl ⟨s', rfl, rfl, attempt_of_ok hopen hfill⟩)
    | error e => exact .inr (.inr ⟨e, rfl, rfl, attempt_of_error hopen hfill⟩)

theorem attempt_eq_error (h : attempt isOpen fill s = .error e s') : s' = s := by
  rcases attempt_cases isOpen fill s with ⟨-, hs⟩ | ⟨s₁, -, -, hs⟩ | ⟨e₁, -, -, hs⟩
  · cases hs.symm.trans h
  · cases hs.symm.trans h
  · cases hs.symm.trans h
    rfl

theorem final_attempt_cases (isOpen : σ → Bool) (fill : σ → Except ε σ) (s : σ) :
    final (attempt isOpen fill s) = s ∨ fill s = .ok (final (attempt isOpen fill s)) := by
  rcases attempt_cases isOpen fill s with ⟨-, hs⟩ | ⟨s', -, hfill, hs⟩ | ⟨e, -, -, hs⟩
  · exact .inl (congrArg final hs)
  · rw [hs]
    exact .inr hfill
  · exact .inl (congrArg final hs)

theorem preserves_attempt {view : σ → β} (h : ∀ s s', fill s = .ok s' → view s' = view s) :
    Preserves view (attempt isOpen fill) := by
  intro s
  rcases final_attempt_cases isOpen fill s with hs | hs
  · rw [hs]
  · exact h s _ hs

/-- An attempt is resumed by one that fills in the same, if what is filled in once would be filled
in the same way again. -/
theorem Settles.attempt {Done : σ → Prop}
    (hfill : ∀ s s', fill s = .ok s' → fill' s = .ok s' ∧ Done s')
    (hclosed : ∀ s, isOpen s = false → Done s)
    (hdone : ∀ s, Done s → isOpen s = true → fill' s = .ok s) :
    Settles (attempt isOpen fill) (attempt isOpen fill') Done := by
  have hsettled : ∀ s, Done s → ChainKit.attempt isOpen fill' s = .ok () s := by
    intro s hs
    cases hopen : isOpen s with
    | false => exact attempt_of_not_isOpen hopen
    | true => exact attempt_of_ok hopen (hdone s hs hopen)
  refine ⟨⟨?_, ?_⟩, ?_, fun hs => hsettled _ hs⟩
  · intro s s' h
    rcases attempt_cases isOpen fill s with ⟨hopen, hs⟩ | ⟨s₁, hopen, hs₁, hs⟩ | ⟨e, -, -, hs⟩
    · cases hs.symm.trans h
      exact attempt_of_not_isOpen hopen
    · cases hs.symm.trans h
      exact attempt_of_ok hopen (hfill s s' hs₁).1
    · cases hs.symm.trans h
  · intro s
    rcases attempt_cases isOpen fill s with ⟨-, hs⟩ | ⟨s₁, hopen, hs₁, hs⟩ | ⟨e, -, -, hs⟩
    · rw [hs, final]
    · obtain ⟨hs₁', hdone₁⟩ := hfill s s₁ hs₁
      rw [hs, final, attempt_of_ok hopen hs₁']
      exact hsettled s₁ hdone₁
    · rw [hs, final]
  · intro s s' h
    rcases attempt_cases isOpen fill s with ⟨hopen, hs⟩ | ⟨s₁, hopen, hs₁, hs⟩ | ⟨e, -, -, hs⟩
    · cases hs.symm.trans h
      exact hclosed s hopen
    · cases hs.symm.trans h
      exact (hfill s s' hs₁).2
    · cases hs.symm.trans h

/-- Runs a program unless it is done already. -/
def unlessDone (isDone : σ → Bool) (p : EStateM ε σ Unit) : EStateM ε σ Unit := fun s =>
  if isDone s then .ok () s else p s

theorem unlessDone_of_isDone {isDone : σ → Bool} {p : EStateM ε σ Unit} (h : isDone s = true) :
    unlessDone isDone p s = .ok () s := if_pos h

theorem unlessDone_of_not_isDone {isDone : σ → Bool} {p : EStateM ε σ Unit}
    (h : isDone s = false) : unlessDone isDone p s = p s := by
  simp only [unlessDone, h]
  rfl

theorem Settles.unlessDone {p p' : EStateM ε σ Unit} {Done : σ → Prop} (hp : Settles p p' Done)
    (isDone : σ → Bool)
    (hleft : ∀ s, isDone s = false → isDone (final (p s)) = true → Done (final (p s))) :
    Settles (unlessDone isDone p) (unlessDone isDone p') fun s => isDone s = true ∨ Done s := by
  refine ⟨⟨?_, ?_⟩, ?_, ?_⟩
  · intro s s' h
    cases hs : isDone s with
    | true =>
      rw [unlessDone_of_isDone hs] at h ⊢
      exact h
    | false =>
      rw [unlessDone_of_not_isDone hs] at h ⊢
      exact hp.covers h
  · intro s
    cases hs : isDone s with
    | true => rw [unlessDone_of_isDone hs, final]
    | false =>
      rw [unlessDone_of_not_isDone hs, unlessDone_of_not_isDone hs, ← hp.resumes s]
      cases hdone : isDone (final (p s)) with
      | true => rw [unlessDone_of_isDone hdone, hp.done (hleft s hs hdone)]
      | false => rw [unlessDone_of_not_isDone hdone]
  · intro s s' h
    cases hs : isDone s with
    | true =>
      rw [unlessDone_of_isDone hs] at h
      cases h
      exact .inl hs
    | false =>
      rw [unlessDone_of_not_isDone hs] at h
      exact .inr (hp.post h)
  · intro s h
    cases hs : isDone s with
    | true => exact unlessDone_of_isDone hs
    | false =>
      rw [unlessDone_of_not_isDone hs]
      rcases h with hdone | hdone
      · cases hs.symm.trans hdone
      · exact hp.done hdone

end ChainKit
