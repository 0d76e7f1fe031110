import ChainKit.Proofs.Abi.Arena.Built
import ChainKit.Proofs.Abi.Declared

namespace ChainKit.Abi.Arena
set_option autoImplicit true

variable {a : Arena} {t : TypeTable}

namespace View

variable {v : View} {i : Nat}

theorem get?_of_lt (h : i < v.table.size) : v.get? i = v.table.get? i := if_pos h

theorem get?_of_le (h : v.table.size ≤ i) : v.get? i = v.extra[i - v.table.size]? :=
  if_neg (Nat.not_lt_of_le h)

theorem get?_eq_none : v.get? i = none ↔ v.size ≤ i := by
  rw [size]
  by_cases h : i < v.table.size
  · rw [get?_of_lt h, Arena.get?_eq_none]
    omega
  · rw [get?_of_le (Nat.le_of_not_lt h), Array.getElem?_eq_none_iff]
    omega

theorem get?_push_of_ne (e : Entry) (h : i ≠ v.size) :
    View.get? { v with extra := v.extra.push e } i = v.get? i := by
  rw [get?, get?]
  by_cases hi : i < v.table.size
  · rw [if_pos hi, if_pos hi]
  · have hne : i - v.table.size ≠ v.extra.size := by
      rw [size] at h
      omega
    rw [if_neg hi, if_neg hi, Array.getElem?_push, if_neg hne]

theorem get?_push_size (v : View) (e : Entry) :
    View.get? { v with extra := v.extra.push e } v.size = some e := by
  have hi : ¬v.size < v.table.size := Nat.not_lt_of_le (Nat.le_add_right _ _)
  have hlast : v.size - v.table.size = v.extra.size := Nat.add_sub_cancel_left _ _
  rw [get?, if_neg hi, hlast]
  exact Array.getElem?_push_size

theorem stores_nil (h : Stores a.get? ts) : Stores (View.get? ⟨a, #[], 0⟩) ts := by
  have hget : View.get? ⟨a, #[], 0⟩ = a.get? := by
    funext i
    by_cases hi : i < a.size
    · exact get?_of_lt hi
    · rw [get?_of_le (Nat.le_of_not_lt hi), Arena.get?_eq_none.mpr (Nat.le_of_not_lt hi)]
      exact Array.getElem?_empty
  rw [hget]
  exact h

theorem entryAt_bind_apply {f : Entry → Storing α} (h : v.get? i = some e) :
    (entryAt i >>= f) v = f e v := by
  have hget {g : View → Storing α} : (get >>= g) v = g v v := rfl
  rw [entryAt, bind_assoc, hget, h, pure_bind]

theorem agrees_push (h : Stores v.get? ts) (he : e.Is ts type) :
    Agrees (fun p u => p.2.table = v.table ∧ Stores p.2.get? (ts ++ [type]) ∧
      (ts ++ [type])[p.1]? = some u) ((push e : Storing TypeId) v)
      (.ok type : Except ResolutionError Ty) := by
  have hsize := h.length_eq fun _ => get?_eq_none
  have hold : ∀ i, i ≠ ts.length → View.get? { v with extra := v.extra.push e } i = v.get? i :=
    fun i hi => get?_push_of_ne e (hsize ▸ hi)
  have hnew : View.get? { v with extra := v.extra.push e } ts.length = some e := by
    rw [hsize]
    exact get?_push_size v e
  have hlast : (ts ++ [type])[v.size]? = some type := by
    rw [← hsize]
    exact List.getElem?_concat_length
  exact .ok ⟨rfl, h.push he hold hnew, hlast⟩

/-- A requested name gets a place as it gets a type: for the same cause not, or with its type
there. -/
theorem agrees_placeWithin (ha : a.Holds t.meanings) (fuel : Nat) (name : String) :
    Agrees (fun p type => p.2.table = a ∧
        Stores p.2.get? (t.meanings.types ++ t.addedWithin fuel name) ∧
        (t.meanings.types ++ t.addedWithin fuel name)[p.1]? = some type)
      (View.placeWithin fuel name ⟨a, #[], 0⟩) (t.viewWithin fuel name) := by
  induction fuel generalizing name with
  | zero => exact .error
  | succ fuel ih =>
    have hget {g : View → Storing TypeId} : (get >>= g) ⟨a, #[], 0⟩ = g ⟨a, #[], 0⟩ ⟨a, #[], 0⟩ :=
      rfl
    rw [View.placeWithin, hget, TypeTable.viewWithin, TypeTable.addedWithin]
    cases hplace : a.lookup? name with
    | some i =>
      obtain ⟨type, hknown, hat⟩ := ha.isAt hplace
      have hknown : t.lookup? name = some type := hknown
      simp only [hknown, List.append_nil]
      exact .ok ⟨rfl, stores_nil ha.stores, hat.type⟩
    | none =>
      have hknown : t.lookup? name = none := ha.lookup?_eq_none.mp hplace
      cases hsuffix : Suffix.split? name with
      | some p =>
        obtain ⟨suffix, stem⟩ := p
        simp only [hknown]
        -- What the stem adds stands in front of the wrapped type.
        apply (ih stem).bind_except
        rintro i v type hstem ⟨htable, hstores, hi⟩
        obtain ⟨e, he, his⟩ := hstores.exists_entry hi
        have hwrap := his.wrap? hi suffix
        rw [entryAt_bind_apply he, hstem]
        simp only [Except.toOption, Option.bind]
        generalize Entry.wrap? suffix i e = wrapped at hwrap
        generalize suffix.wrap? type = type' at hwrap
        cases hwrap with
        | none => exact .error
        | @some _ type' hin =>
          apply (agrees_push hstores hin).mono
          rintro p u ⟨htable', hstores', hp⟩
          rw [Option.toList_some, ← List.append_assoc]
          exact ⟨htable'.trans htable, hstores', hp⟩
      | none =>
        cases Builtin.ofName? name with
        | some b =>
          simp only [hknown]
          exact agrees_push (stores_nil ha.stores) .builtin
        | none =>
          simp only [hknown]
          exact .error

end View

end ChainKit.Abi.Arena
