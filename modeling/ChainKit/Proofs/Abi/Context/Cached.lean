import ChainKit.Proofs.Abi.Context.Registry

namespace ChainKit.Abi.Context
set_option autoImplicit true

/-- Whether an operation converts by a document that it is given. -/
def Operation.HasDocument : Operation → Prop
  | serialize _ _ _ _ | deserialize _ _ _ _ => True
  | _ => False

namespace Registry

/-- A conversion by a given document does not look at the documents of the registry. -/
theorem answer_of_hasDocument {o : Operation} (h : o.HasDocument) (config : Config)
    (r r' : Registry) : r.answer config o = r'.answer config o := by
  cases o with
  | serialize k? name json d => rfl
  | deserialize k? name hex d => rfl
  | _ => exact h.elim

end Registry

variable {config : Config}

theorem shows_run (config : Config) (os : List Operation) :
    Shows config (run step (new config) os).2 (run (Registry.step config) .empty os).2 := by
  have h := run_related step (Registry.step config) (R := Shows config) (fun _ _ o h => h.step o)
    (shows_new config) os
  exact h.2

theorem outcome_of_shows (h : Shows config c r) (o : Operation) :
    (step c o).1 = r.answer config o := (h.step o).1

theorem outcome_of_hasDocument {o : Operation} (ho : o.HasDocument) (h : Shows config c r)
    (h' : Shows config c' r') : (step c o).1 = (step c' o).1 := by
  rw [outcome_of_shows h, outcome_of_shows h']
  exact Registry.answer_of_hasDocument ho config r r'

theorem outcome_of_loaded (h : Shows config c r) (hk : c.contracts.find? k = some l) (k' : Name) :
    (step (new config) (.setDocument k' l.document)).1 = .ok (.loaded l) := by
  rw [outcome_of_shows (shows_new config)]
  have hdocument := h.sound k l hk
  simp only [Registry.answer, check, hdocument]
  rfl

/-- Conversions by a given document answer after any history what they answer in a fresh context,
and each contract that may be reused is the one that a fresh context makes of its document. -/
theorem convert_eq_fresh (config : Config) (os : List Operation) (k? : Option Name)
    (name input : String) (d : Document) :
    let c := (run step (new config) os).2
    (step c (.serialize k? name input d)).1 = (step (new config) (.serialize k? name input d)).1 ∧
    (step c (.deserialize k? name input d)).1 =
      (step (new config) (.deserialize k? name input d)).1 ∧
    ∀ k l, c.contracts.find? k = some l →
      (step (new config) (.setDocument k l.document)).1 = .ok (.loaded l) := by
  intro c
  have hreached := shows_run config os
  have hfresh := shows_new config
  refine ⟨?_, ?_, ?_⟩
  · exact outcome_of_hasDocument trivial hreached hfresh
  · exact outcome_of_hasDocument trivial hreached hfresh
  · intro k l hk
    exact outcome_of_loaded hreached hk k

end ChainKit.Abi.Context
