import ChainKit.Proofs.Abi.Arena.Stored
import ChainKit.Proofs.Abi.Resolution.Memory

namespace ChainKit.Abi.Arena
set_option autoImplicit true

/-- Whether two computations end alike: for the same cause, or with related results. -/
inductive Agrees (R : α → β → Prop) : Except (Fault ε) α → Except ε β → Prop where
  | error : Agrees R (.error (.cause e)) (.error e)
  | ok : R x y → Agrees R (.ok x) (.ok y)

namespace Agrees

theorem mono_ok {R S : α → β → Prop} {x : Except (Fault ε) α} {y : Except ε β}
    (h : Agrees R x y) (hrs : ∀ u v, y = .ok v → R u v → S u v) : Agrees S x y := by
  cases h with
  | error => exact .error
  | ok h => exact .ok (hrs _ _ rfl h)

theorem mono {R S : α → β → Prop} {x : Except (Fault ε) α} {y : Except ε β} (h : Agrees R x y)
    (hrs : ∀ u v, R u v → S u v) : Agrees S x y :=
  h.mono_ok fun u v _ => hrs u v

theorem bind {R : α × σ → β × τ → Prop} {S : γ × σ → δ × τ → Prop}
    {x : StateT σ (Except (Fault ε)) α} {y : StateT τ (Except ε) β}
    {f : α → StateT σ (Except (Fault ε)) γ} {g : β → StateT τ (Except ε) δ} {s : σ} {r : τ}
    (h : Agrees R (x s) (y r))
    (hfg : ∀ u s₁ v r₁, R (u, s₁) (v, r₁) → Agrees S (f u s₁) (g v r₁)) :
    Agrees S ((x >>= f) s) ((y >>= g) r) := by
  rw [show (x >>= f) s = x s >>= fun p => f p.1 p.2 from rfl,
    show (y >>= g) r = y r >>= fun q => g q.1 q.2 from rfl]
  generalize x s = stored at h
  generalize y r = found at h
  cases h with
  | error => exact .error
  | ok h => exact hfg _ _ _ _ h

theorem bind_except {R : α × σ → β → Prop} {S : γ × σ → δ → Prop}
    {x : StateT σ (Except (Fault ε)) α} {y : Except ε β} {f : α → StateT σ (Except (Fault ε)) γ}
    {g : β → Except ε δ} {s : σ} (h : Agrees R (x s) y)
    (hfg : ∀ u s₁ v, y = .ok v → R (u, s₁) v → Agrees S (f u s₁) (g v)) :
    Agrees S ((x >>= f) s) (y >>= g) := by
  rw [show (x >>= f) s = x s >>= fun p => f p.1 p.2 from rfl]
  generalize x s = stored at h
  cases h with
  | error => exact .error
  | ok h => exact hfg _ _ _ rfl h

theorem map_right {R : α × σ → β × τ → Prop} {S : α × σ → γ × τ → Prop}
    {x : StateT σ (Except (Fault ε)) α} {y : StateT τ (Except ε) β} {g : β → γ} {s : σ} {r : τ}
    (h : Agrees R (x s) (y r)) (hrs : ∀ p q, R p q → S p (g q.1, q.2)) :
    Agrees S (x s) ((y >>= fun v => pure (g v)) r) := by
  rw [← bind_pure x]
  apply h.bind
  intro u s₁ v r₁ hR
  exact .ok (hrs _ _ hR)

theorem mapError {R : α → β → Prop} {x : Except (Fault ε) α} {y : Except ε β} (h : Agrees R x y)
    (f : ε → ε') : Agrees R (x.mapError (Fault.map f)) (y.mapError f) := by
  cases h with
  | error => exact .error
  | ok h => exact .ok h

end Agrees

/-- Whether an arena has the types of a document that are known so far, and a place for each name
that has a meaning. -/
structure Holds (a : Arena) (m : Meanings) : Prop where
  stores : Stores a.get? m.types
  names : ∀ name, Option.Rel (fun i t => m.types[i]? = some t) (a.lookup? name) (m.lookup? name)

/-- Whether an arena keeps its names, and its entries but for those at some places. -/
structure Grows (ids : List TypeId) (a a' : Arena) : Prop where
  names : ∀ name i, a.lookup? name = some i → a'.lookup? name = some i
  entries : ∀ i, i ∉ ids → ∀ e, a.get? i = some e → a'.get? i = some e

/-- Whether an arena and the meanings grow together. -/
structure Advances (ids : List TypeId) (a : Arena) (m : Meanings) (a' : Arena) (m' : Meanings) :
    Prop where
  holds : a'.Holds m'
  grows : Grows ids a a'
  types : m.types <+: m'.types

structure IsAt (a : Arena) (m : Meanings) (name : String) (i : TypeId) (t : Ty) : Prop where
  place : a.lookup? name = some i
  type : m.types[i]? = some t

section

variable {a a₁ a' : Arena} {m m₁ m' : Meanings} {i : TypeId} {ids ids' : List TypeId}

theorem get?_eq_none : a.get? i = none ↔ a.size ≤ i := Array.getElem?_eq_none_iff

theorem Holds.length_eq (h : a.Holds m) : m.types.length = a.size :=
  h.stores.length_eq fun _ => get?_eq_none

theorem Holds.isAt (h : a.Holds m) (hi : a.lookup? name = some i) :
    ∃ t, m.lookup? name = some t ∧ IsAt a m name i t := by
  have hrel := h.names name
  rw [hi] at hrel
  generalize hknown : m.lookup? name = known at hrel
  cases hrel with
  | some ht => exact ⟨_, rfl, hi, ht⟩

theorem Holds.lookup?_eq_none (h : a.Holds m) :
    a.lookup? name = none ↔ m.lookup? name = none := by
  have hrel := h.names name
  generalize a.lookup? name = place at hrel
  generalize m.lookup? name = known at hrel
  cases hrel with
  | none => exact ⟨fun _ => rfl, fun _ => rfl⟩
  | some _ => exact ⟨nofun, nofun⟩

theorem Grows.refl (a : Arena) : Grows [] a a := ⟨fun _ _ h => h, fun _ _ _ h => h⟩

theorem Grows.trans (h : Grows ids a a₁) (h' : Grows ids' a₁ a') : Grows (ids ++ ids') a a' := by
  constructor
  · intro name i hi
    exact h'.names name i (h.names name i hi)
  · intro i hi e he
    rw [List.mem_append, not_or] at hi
    exact h'.entries i hi.2 e (h.entries i hi.1 e he)

theorem Advances.refl (h : a.Holds m) : Advances [] a m a m :=
  ⟨h, .refl a, List.prefix_rfl⟩

theorem Advances.trans (h : Advances ids a m a₁ m₁) (h' : Advances ids' a₁ m₁ a' m') :
    Advances (ids ++ ids') a m a' m' :=
  ⟨h'.holds, h.grows.trans h'.grows, h.types.trans h'.types⟩

theorem Advances.getElem? (h : Advances ids a m a' m') (hi : m.types[i]? = some t) :
    m'.types[i]? = some t := by
  obtain ⟨more, hmore⟩ := h.types
  rw [← hmore]
  exact Entry.getElem?_append_of_some hi more

theorem IsAt.advances (h : IsAt a m name i t) (hadv : Advances ids a m a' m') :
    IsAt a' m' name i t :=
  ⟨hadv.grows.names name i h.place, hadv.getElem? h.type⟩

theorem rel_lookup_cons {R S : α → β → Prop} {xs : List (String × α)} {ys : List (String × β)}
    (hrs : ∀ x y, R x y → S x y) (hxs : ∀ name, Option.Rel R (xs.lookup name) (ys.lookup name))
    (hx : S x y) (name other : String) :
    Option.Rel S (((name, x) :: xs).lookup other) (((name, y) :: ys).lookup other) := by
  rw [List.lookup_cons, List.lookup_cons]
  split
  · exact .some hx
  · have hrel := hxs other
    generalize xs.lookup other = known at hrel
    generalize ys.lookup other = known' at hrel
    cases hrel with
    | none => exact .none
    | some h => exact .some (hrs _ _ h)

theorem lookup?_cons_of_ne (h : other ≠ name) :
    lookup? ⟨entries, (name, i) :: known⟩ other = known.lookup other := by
  rw [lookup?, List.lookup_cons, beq_false_of_ne h]

theorem Grows.remember (h : Grows ids a a') (hnone : a.lookup? name = none) (i : TypeId) :
    Grows ids a ⟨a'.types, (name, i) :: a'.names⟩ := by
  refine ⟨?_, h.entries⟩
  intro other j hj
  have hne : other ≠ name := by
    rintro rfl
    cases hnone.symm.trans hj
  rw [lookup?_cons_of_ne hne]
  exact h.names other j hj

theorem Advances.remember (h : Advances ids a m a' m') (hnone : a.lookup? name = none)
    (hi : m'.types[i]? = some t) :
    Advances ids a m ⟨a'.types, (name, i) :: a'.names⟩ ⟨(name, t) :: m'.names, m'.types⟩ ∧
      IsAt ⟨a'.types, (name, i) :: a'.names⟩ ⟨(name, t) :: m'.names, m'.types⟩ name i t := by
  have hnames := rel_lookup_cons (fun _ _ hj => hj) h.holds.names hi name
  exact ⟨⟨⟨h.holds.stores, hnames⟩, h.grows.remember hnone i, h.types⟩, List.lookup_cons_self, hi⟩

/-- An entry is put behind the others for a name that had no place. -/
theorem Advances.insert (h : Advances ids a m a' m') (hnone : a.lookup? name = none)
    (he : e.Is m'.types t) :
    Advances ids a m ⟨a'.types.push e, (name, a'.size) :: a'.names⟩
        ⟨(name, t) :: m'.names, m'.types ++ [t]⟩ ∧
      IsAt ⟨a'.types.push e, (name, a'.size) :: a'.names⟩
        ⟨(name, t) :: m'.names, m'.types ++ [t]⟩ name a'.size t := by
  have hsize := h.holds.length_eq
  have hold : ∀ i, i ≠ m'.types.length → (a'.types.push e)[i]? = a'.get? i := by
    intro i hi
    rw [Array.getElem?_push, if_neg (fun hi' => hi (hi'.trans hsize.symm))]
    rfl
  have hnew : (a'.types.push e)[m'.types.length]? = some e := by
    rw [hsize]
    exact Array.getElem?_push_size
  have hlast : (m'.types ++ [t])[a'.size]? = some t := by
    rw [← hsize]
    exact List.getElem?_concat_length
  have hnames := rel_lookup_cons (fun _ _ hj => Entry.getElem?_append_of_some hj [t])
    h.holds.names hlast name
  have hgrows : Grows ids a ⟨a'.types.push e, a'.names⟩ := by
    refine ⟨h.grows.names, ?_⟩
    intro i hi e' he'
    have hkept := h.grows.entries i hi e' he'
    have hlt := h.holds.stores.lt_length hkept
    exact (hold i (Nat.ne_of_lt hlt)).trans hkept
  exact ⟨⟨⟨h.holds.stores.push he hold hnew, hnames⟩, hgrows.remember hnone a'.size,
    h.types.trans (List.prefix_append _ _)⟩, List.lookup_cons_self, hlast⟩

theorem bind_apply {x : Storing ε α} {f : α → Storing ε β} (h : x a = .ok (u, a')) :
    (x >>= f) a = f u a' := by
  rw [show (x >>= f) a = x a >>= fun p => f p.1 p.2 from rfl, h]
  rfl

theorem get_bind_apply {f : Arena → Storing ε α} : (get >>= f) a = f a a := rfl

theorem entryAt_bind_apply {f : Entry → Storing ε α} (h : a.get? i = some e) :
    (entryAt i >>= f) a = f e a := by
  rw [entryAt, bind_assoc, get_bind_apply, h, pure_bind]

end

variable {d : Document} {a : Arena} {m : Meanings}

/-- A name gets a place as it gets a meaning: for the same cause not, or with its type there. -/
theorem agrees_placeWithin (ha : a.Holds m) :
    Agrees (fun p q => Advances [] a m p.2 q.2 ∧ IsAt p.2 q.2 name p.1 q.1)
      (d.placeWithin fuel visited name a) (d.resolveWithin fuel visited name m) := by
  induction fuel generalizing visited name a m with
  | zero => exact .error
  | succ fuel ih =>
    rw [Document.placeWithin, Document.resolveWithin, get_bind_apply, Resolving.get_bind_apply]
    cases hplace : a.lookup? name with
    | some i =>
      obtain ⟨t, hknown, hat⟩ := ha.isAt hplace
      simp only [hknown]
      exact .ok ⟨.refl ha, hat⟩
    | none =>
      have hknown := ha.lookup?_eq_none.mp hplace
      cases hsuffix : Suffix.split? name with
      | some p =>
        obtain ⟨suffix, stem⟩ := p
        simp only [hknown]
        apply (ih ha).bind
        rintro i a₁ u m₁ ⟨hadv, hat⟩
        obtain ⟨e, he, his⟩ := hadv.holds.stores.exists_entry hat.type
        rw [entryAt_bind_apply he]
        have hwrap := his.wrap? hat.type suffix
        generalize Entry.wrap? suffix i e = wrapped at hwrap
        generalize suffix.wrap? u = type at hwrap
        cases hwrap with
        | none => exact .error
        | some hin => exact .ok (hadv.insert hplace hin)
      | none =>
        cases Builtin.ofName? name with
        | some b =>
          simp only [hknown]
          exact .ok ((Advances.refl ha).insert hplace .builtin)
        | none =>
          cases d.aliasTarget? name with
          | none =>
            simp only [hknown]
            exact .error
          | some target =>
            simp only [hknown]
            split
            · exact .error
            · apply (ih ha).bind
              rintro i a₁ u m₁ ⟨hadv, hat⟩
              obtain ⟨e, he, his⟩ := hadv.holds.stores.exists_entry hat.type
              rw [entryAt_bind_apply he, his.isExtension_eq]
              split
              · exact .error
              · exact .ok (hadv.remember hplace hat.type)

end ChainKit.Abi.Arena
