namespace ChainKit

/-- Keys ordered by a number that tells them apart. -/
class Ranked (κ : Type) where
  rank : κ → Nat
  rank_inj : ∀ {a b : κ}, rank a = rank b → a = b

open Ranked

/-- A finite map as its entries, the keys in increasing order. -/
structure SortedMap (κ ν : Type) [Ranked κ] where
  entries : List (κ × ν)
  sorted : entries.Pairwise fun a b => rank a.1 < rank b.1

namespace SortedMap

variable {κ ν : Type} [Ranked κ]

def find (k : κ) : List (κ × ν) → Option ν
  | [] => none
  | (a, v) :: rest => if rank a = rank k then some v else find k rest

def put (k : κ) (v : ν) : List (κ × ν) → List (κ × ν)
  | [] => [(k, v)]
  | (a, w) :: rest =>
    if rank k < rank a then (k, v) :: (a, w) :: rest
    else if rank k = rank a then (k, v) :: rest
    else (a, w) :: put k v rest

theorem mem_put {k : κ} {v : ν} {es : List (κ × ν)} {e : κ × ν} (h : e ∈ put k v es) :
    e = (k, v) ∨ e ∈ es := by
  induction es with
  | nil => simpa [put] using h
  | cons a rest ih =>
    simp only [put] at h
    split at h
    · simpa using h
    split at h
    · rcases List.mem_cons.1 h with h | h
      · exact .inl h
      · exact .inr (List.mem_cons_of_mem _ h)
    · rcases List.mem_cons.1 h with h | h
      · exact .inr (h ▸ List.mem_cons_self)
      · exact (ih h).imp_right (List.mem_cons_of_mem _)

theorem sorted_put (k : κ) (v : ν) {es : List (κ × ν)}
    (h : es.Pairwise fun a b => rank a.1 < rank b.1) :
    (put k v es).Pairwise fun a b => rank a.1 < rank b.1 := by
  induction es with
  | nil => simp [put]
  | cons a rest ih =>
    obtain ⟨hhead, hrest⟩ := List.pairwise_cons.1 h
    simp only [put]
    split
    · rename_i hlt
      refine List.pairwise_cons.2 ⟨fun e he => ?_, h⟩
      rcases List.mem_cons.1 he with rfl | he
      · exact hlt
      · exact Nat.lt_trans hlt (hhead e he)
    split
    · rename_i heq
      exact List.pairwise_cons.2 ⟨fun e he => heq ▸ hhead e he, hrest⟩
    · refine List.pairwise_cons.2 ⟨fun e he => ?_, ih hrest⟩
      rcases mem_put he with rfl | he
      · simp only
        omega
      · exact hhead e he

def empty : SortedMap κ ν := ⟨[], List.Pairwise.nil⟩

instance : Inhabited (SortedMap κ ν) := ⟨empty⟩

def find? (m : SortedMap κ ν) (k : κ) : Option ν := find k m.entries

def insert (m : SortedMap κ ν) (k : κ) (v : ν) : SortedMap κ ν :=
  ⟨put k v m.entries, sorted_put k v m.sorted⟩

def erase (m : SortedMap κ ν) (k : κ) : SortedMap κ ν :=
  ⟨m.entries.filter fun e => rank e.1 ≠ rank k, m.sorted.filter _⟩

def contains (m : SortedMap κ ν) (k : κ) : Bool := (m.find? k).isSome

def keys (m : SortedMap κ ν) : List κ := m.entries.map Prod.fst

def size (m : SortedMap κ ν) : Nat := m.entries.length

theorem find_put (k k' : κ) (v : ν) (es : List (κ × ν)) :
    find k' (put k v es) = if rank k = rank k' then some v else find k' es := by
  induction es with
  | nil => simp [put, find]
  | cons a rest ih =>
    simp only [put]
    split
    · rfl
    split
    · simp only [find]
      split
      · rfl
      · rw [if_neg (by omega)]
    · simp only [find]
      split
      · rw [if_neg (by omega)]
      · exact ih

theorem find?_insert (m : SortedMap κ ν) (k k' : κ) (v : ν) :
    (m.insert k v).find? k' = if rank k = rank k' then some v else m.find? k' :=
  find_put k k' v m.entries

theorem find?_erase (m : SortedMap κ ν) (k k' : κ) :
    (m.erase k).find? k' = if rank k = rank k' then none else m.find? k' := by
  obtain ⟨es, hes⟩ := m
  simp only [find?, erase]
  clear hes
  induction es with
  | nil => simp [find]
  | cons a rest ih =>
    by_cases ha : rank a.1 = rank k
    · rw [List.filter_cons_of_neg (by simpa using ha), ih]
      simp only [find]
      split
      · rfl
      · rw [if_neg (by omega)]
    · rw [List.filter_cons_of_pos (by simpa using ha)]
      simp only [find]
      split
      · rw [if_neg (by omega)]
      · exact ih

theorem find_eq_none {k : κ} {es : List (κ × ν)} (h : ∀ e ∈ es, rank k < rank e.1) :
    find k es = none := by
  induction es with
  | nil => rfl
  | cons a rest ih =>
    have ha := h a List.mem_cons_self
    rw [find, if_neg (by omega)]
    exact ih fun e he => h e (List.mem_cons_of_mem _ he)

theorem put_of_find {k : κ} {v : ν} {es : List (κ × ν)}
    (h : es.Pairwise fun a b => rank a.1 < rank b.1) (hk : find k es = some v) :
    put k v es = es := by
  induction es with
  | nil => cases hk
  | cons a rest ih =>
    obtain ⟨hhead, hrest⟩ := List.pairwise_cons.1 h
    simp only [find] at hk
    split at hk
    · rename_i heq
      cases hk
      rw [put, if_neg (by omega), if_pos heq.symm, ← rank_inj heq]
    · rename_i hne
      have hlt : ¬rank k < rank a.1 := by
        intro hlt
        rw [find_eq_none fun e he => Nat.lt_trans hlt (hhead e he)] at hk
        cases hk
      rw [put, if_neg hlt, if_neg (Ne.symm hne), ih hrest hk]

/-- Storing a value that is there already changes nothing. -/
theorem insert_of_find? {m : SortedMap κ ν} {k : κ} {v : ν} (h : m.find? k = some v) :
    m.insert k v = m := by
  obtain ⟨es, hes⟩ := m
  simp only [insert, put_of_find hes h]

theorem mem_keys {m : SortedMap κ ν} {k : κ} : k ∈ m.keys ↔ (m.find? k).isSome := by
  obtain ⟨es, hes⟩ := m
  simp only [keys, find?]
  clear hes
  induction es with
  | nil => exact ⟨nofun, nofun⟩
  | cons a rest ih =>
    rw [List.map_cons, List.mem_cons, find]
    split
    · rename_i heq
      exact ⟨fun _ => rfl, fun _ => .inl (rank_inj heq).symm⟩
    · rename_i hne
      rw [← ih]
      exact ⟨fun h => h.resolve_left fun hk => hne (hk ▸ rfl), .inr⟩

end SortedMap
end ChainKit
