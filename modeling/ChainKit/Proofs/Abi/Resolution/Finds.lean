import ChainKit.Proofs.Abi.Resolution.Memory

namespace ChainKit.Abi.Document
set_option autoImplicit true

/-- Whether a computation has just the results in `R` and meets the names, whatever is remembered
when it begins. -/
structure Finds (d : Document) (names : List String) (x : Resolving ε α) (R : α → Prop) : Prop where
  sound : ∀ m a m', m.AreSound d → x m = .ok (a, m') → R a ∧ Meanings.After d names m m'
  complete : ∀ m a, m.AreSound d → R a → ∃ m', x m = .ok (a, m')

namespace Finds

variable {d : Document}

theorem mono {x : Resolving ε α} (h : d.Finds names x R) (hR : ∀ a, R a ↔ S a)
    (hnames : names' ⊆ names) : d.Finds names' x S := by
  constructor
  · intro m a m' hm ha
    obtain ⟨hr, hsound, hkept, hmet⟩ := h.sound m a m' hm ha
    exact ⟨(hR a).mp hr, hsound, hkept, fun name hn => hmet name (hnames hn)⟩
  · intro m a hm ha
    exact h.complete m a hm ((hR a).mpr ha)

theorem pure (a : α) : d.Finds [] (Pure.pure a : Resolving ε α) (· = a) := by
  constructor
  · intro m b m' hm hb
    cases hb
    exact ⟨rfl, .refl hm⟩
  · rintro m b hm rfl
    exact ⟨m, rfl⟩

theorem lift (x : Except ε α) : d.Finds [] (liftM x : Resolving ε α) (x = .ok ·) := by
  constructor
  · intro m a m' hm ha
    obtain ⟨b, hb, ha⟩ := Result.bind_eq_ok.mp ha
    cases ha
    exact ⟨hb, .refl hm⟩
  · intro m a hm ha
    exact ⟨m, Result.bind_eq_ok.mpr ⟨a, ha, rfl⟩⟩

theorem throw (e : ε) : d.Finds names (MonadExcept.throw e : Resolving ε α) fun _ => False := by
  constructor
  · intro m a m' hm ha
    cases ha
  · intro m a hm ha
    exact ha.elim

theorem bind {x : Resolving ε α} {f : α → Resolving ε β} {S : α → β → Prop} (hx : d.Finds names x R)
    (hf : ∀ a, R a → d.Finds names' (f a) (S a)) :
    d.Finds (names ++ names') (x >>= f) fun b => ∃ a, R a ∧ S a b := by
  constructor
  · intro m b m' hm hb
    obtain ⟨a, m₁, ha, hb⟩ := Resolving.bind_eq_ok.mp hb
    obtain ⟨hr, hafter⟩ := hx.sound m a m₁ hm ha
    obtain ⟨hs, hafter'⟩ := (hf a hr).sound m₁ b m' hafter.sound hb
    exact ⟨⟨a, hr, hs⟩, hafter.trans hafter'⟩
  · rintro m b hm ⟨a, hr, hs⟩
    obtain ⟨m₁, ha⟩ := hx.complete m a hm hr
    obtain ⟨m', hb⟩ := (hf a hr).complete m₁ b (hx.sound m a m₁ hm ha).2.sound hs
    exact ⟨m', Resolving.bind_eq_ok.mpr ⟨a, m₁, ha, hb⟩⟩

theorem mapM {f : α → Resolving ε β} {xs : List α}
    (h : ∀ x ∈ xs, d.Finds (names x) (f x) (R x)) :
    d.Finds (xs.flatMap names) (xs.mapM f) (Result.Each R xs) := by
  induction xs with
  | nil =>
    refine (pure []).mono ?_ (List.Subset.refl _)
    intro ys
    constructor
    · rintro rfl
      exact .nil
    · intro h
      cases h
      rfl
  | cons x xs ih =>
    obtain ⟨hx, hxs⟩ := List.forall_mem_cons.mp h
    rw [List.mapM_cons]
    refine (hx.bind fun y _ => (ih hxs).bind fun ys _ => pure (y :: ys)).mono ?_ ?_
    · intro zs
      constructor
      · rintro ⟨y, hy, ys, hys, rfl⟩
        exact .cons hy hys
      · intro h
        cases h with
        | cons hy hys => exact ⟨_, hy, _, hys, rfl⟩
    · rw [List.flatMap_cons, List.append_nil]
      exact List.Subset.refl _

theorem forM {f : α → Resolving ε PUnit} {xs : List α} {P : α → Prop}
    (h : ∀ x ∈ xs, d.Finds (names x) (f x) fun _ => P x) :
    d.Finds (xs.flatMap names) (xs.forM f) fun _ => ∀ x ∈ xs, P x := by
  induction xs with
  | nil =>
    refine (pure PUnit.unit).mono (fun _ => ⟨fun _ _ h => ?_, fun _ => rfl⟩) (List.Subset.refl _)
    cases h
  | cons x xs ih =>
    obtain ⟨hx, hxs⟩ := List.forall_mem_cons.mp h
    refine Finds.mono (hx.bind fun _ _ => ih hxs) ?_ (List.Subset.refl _)
    intro _
    rw [List.forall_mem_cons]
    exact ⟨fun ⟨_, h⟩ => h, fun h => ⟨.unit, h⟩⟩

end Finds

theorem finds_resolve {d : Document} (hd : d.HasProperNames) :
    d.Finds [name] (d.resolve name) (d.Means name) := by
  constructor
  · intro m t m' hm ht
    exact means_of_resolveWithin hd hm ht
  · rintro m t hm ⟨n, h⟩
    rw [← resolveWithin_of_le (Nat.le_max_right (n + 1) _)]
    exact h.resolveWithin hd hm (Nat.lt_of_succ_le (Nat.le_max_left _ _)) nofun

theorem finds_resolveReference {d : Document} (hd : d.HasProperNames) :
    d.Finds [name] (d.resolveReference referrer name) (d.Means name) := by
  constructor
  · intro m t m' hm ht
    exact (finds_resolve hd).sound m t m' hm (Result.mapError_eq_ok.mp ht)
  · intro m t hm ht
    obtain ⟨m', h⟩ := (finds_resolve hd).complete m t hm ht
    exact ⟨m', Result.mapError_eq_ok.mpr h⟩

end ChainKit.Abi.Document
