import ChainKit.Proofs.Json.Record

namespace ChainKit.Json
set_option autoImplicit true

def insertAll (members entries : List (String × Json)) : List (String × Json) :=
  entries.foldl (fun stored e => insert stored e.1 e.2) members

theorem insertAll_cons (members : List (String × Json)) (e : String × Json)
    (entries : List (String × Json)) :
    insertAll members (e :: entries) = insertAll (insert members e.1 e.2) entries := rfl

theorem insert_of_not_mem (h : key ∉ members.map Prod.fst) (v : Json) :
    insert members key v = members ++ [(key, v)] := by
  induction members with
  | nil => rfl
  | cons m members ih =>
    simp only [List.map_cons, List.mem_cons, not_or] at h
    rw [insert, if_neg (Ne.symm h.1), ih h.2, List.cons_append]

theorem keys_insert_of_mem (h : key ∈ members.map Prod.fst) (v : Json) :
    (insert members key v).map Prod.fst = members.map Prod.fst := by
  induction members with
  | nil => cases h
  | cons m members ih =>
    obtain ⟨k, w⟩ := m
    rw [insert]
    split
    · rfl
    · rename_i hne
      rw [List.map_cons, List.map_cons, ih ((List.mem_cons.mp h).resolve_left (Ne.symm hne))]

theorem member?_insert_self (members : List (String × Json)) (key : String) (v : Json) :
    member? (insert members key v) key = some v := by
  induction members with
  | nil => exact member?_cons_self key v []
  | cons m members ih =>
    obtain ⟨k, w⟩ := m
    rw [insert]
    split
    · rename_i he
      rw [he, member?_cons_self]
    · rename_i hne
      rw [member?_cons_of_ne (Ne.symm hne), ih]

theorem member?_insert_of_ne (h : other ≠ key) (members : List (String × Json)) (v : Json) :
    member? (insert members key v) other = member? members other := by
  induction members with
  | nil => exact member?_cons_of_ne h v []
  | cons m members ih =>
    obtain ⟨k, w⟩ := m
    rw [insert]
    split
    · rename_i he
      rw [he, member?_cons_of_ne h, member?_cons_of_ne h]
    · by_cases hk : other = k
      · rw [hk, member?_cons_self, member?_cons_self]
      · rw [member?_cons_of_ne hk, member?_cons_of_ne hk, ih]

theorem forall_mem_insert {P : String × Json → Prop} (h : ∀ m ∈ members, P m) (hv : P (key, v)) :
    ∀ m ∈ insert members key v, P m := by
  induction members with
  | nil => exact List.forall_mem_singleton.mpr hv
  | cons m members ih =>
    obtain ⟨k, w⟩ := m
    obtain ⟨hm, hmembers⟩ := List.forall_mem_cons.mp h
    rw [insert]
    split
    · rename_i he
      exact List.forall_mem_cons.mpr ⟨he ▸ hv, hmembers⟩
    · exact List.forall_mem_cons.mpr ⟨hm, ih hmembers⟩

theorem length_insert_of_mem (h : key ∈ members.map Prod.fst) (v : Json) :
    (insert members key v).length = members.length := by
  have hkeys := congrArg List.length (keys_insert_of_mem h v)
  rwa [List.length_map, List.length_map] at hkeys

theorem length_insert_le (members : List (String × Json)) (key : String) (v : Json) :
    (insert members key v).length ≤ members.length + 1 := by
  by_cases h : key ∈ members.map Prod.fst
  · rw [length_insert_of_mem h]
    exact Nat.le_succ _
  · rw [insert_of_not_mem h, List.length_append]
    exact Nat.le_refl _

theorem nodup_keys_append_singleton (h : key ∉ members.map Prod.fst)
    (hnodup : (members.map Prod.fst).Nodup) (v : Json) :
    ((members ++ [(key, v)]).map Prod.fst).Nodup := by
  rw [List.map_append, List.nodup_append]
  refine ⟨hnodup, List.pairwise_singleton _ _, ?_⟩
  rintro k hk k' hk' rfl
  cases List.mem_singleton.mp hk'
  exact h hk

theorem nodup_keys_insert (h : (members.map Prod.fst).Nodup) (key : String) (v : Json) :
    ((insert members key v).map Prod.fst).Nodup := by
  by_cases hk : key ∈ members.map Prod.fst
  · rw [keys_insert_of_mem hk]
    exact h
  · rw [insert_of_not_mem hk]
    exact nodup_keys_append_singleton hk h v

theorem nodup_keys_insertAll (h : (members.map Prod.fst).Nodup) (entries : List (String × Json)) :
    ((insertAll members entries).map Prod.fst).Nodup := by
  induction entries generalizing members with
  | nil => exact h
  | cons e entries ih => exact ih (nodup_keys_insert h e.1 e.2)

/-- The value under a key is the last that was stored there. -/
theorem member?_insertAll (members entries : List (String × Json)) (key : String) :
    member? (insertAll members entries) key =
      (entries.reverse.lookup key).or (member? members key) := by
  induction entries generalizing members with
  | nil => rfl
  | cons e entries ih =>
    obtain ⟨k, v⟩ := e
    rw [insertAll_cons, ih, List.reverse_cons, List.lookup_append, Option.or_assoc]
    by_cases he : key = k
    · rw [he, member?_insert_self, List.lookup_cons_self, Option.some_or]
    · rw [member?_insert_of_ne he, List.lookup_cons, beq_false_of_ne he, List.lookup_nil,
        Option.none_or]

theorem length_insertAll_le (members entries : List (String × Json)) :
    (insertAll members entries).length ≤ members.length + entries.length := by
  induction entries generalizing members with
  | nil => exact Nat.le_refl _
  | cons e entries ih =>
    have hone := length_insert_le members e.1 e.2
    have hrest := ih (insert members e.1 e.2)
    rw [insertAll_cons, List.length_cons]
    omega

theorem insertAll_of_nodup (h : ((members ++ entries).map Prod.fst).Nodup) :
    insertAll members entries = members ++ entries := by
  induction entries generalizing members with
  | nil => exact (List.append_nil _).symm
  | cons e entries ih =>
    have hnew : e.1 ∉ members.map Prod.fst := by
      intro hmem
      rw [List.map_append, List.nodup_append] at h
      exact h.2.2 _ hmem e.1 List.mem_cons_self rfl
    rw [← List.singleton_append, ← List.append_assoc] at h
    rw [insertAll_cons, insert_of_not_mem hnew, ih h, List.append_assoc, List.singleton_append]

/-- No member is lost just if all keys are distinct. -/
theorem nodup_of_length_insertAll (hmembers : (members.map Prod.fst).Nodup)
    (h : (insertAll members entries).length = members.length + entries.length) :
    ((members ++ entries).map Prod.fst).Nodup := by
  induction entries generalizing members with
  | nil => rwa [List.append_nil]
  | cons e entries ih =>
    rw [insertAll_cons, List.length_cons] at h
    by_cases hold : e.1 ∈ members.map Prod.fst
    · have hrest := length_insertAll_le (insert members e.1 e.2) entries
      rw [length_insert_of_mem hold] at hrest
      omega
    · rw [insert_of_not_mem hold] at h
      have hnodup := nodup_keys_append_singleton hold hmembers e.2
      have hlength : (members ++ [e]).length = members.length + 1 := List.length_append
      have hall := ih hnodup (by rw [h, hlength]; omega)
      rwa [List.append_assoc] at hall

theorem length_insertAll_iff {entries : List (String × Json)} :
    (insertAll [] entries).length = entries.length ↔ (entries.map Prod.fst).Nodup := by
  have hnil : (([] : List (String × Json)).map Prod.fst).Nodup := List.nodup_nil
  constructor
  · intro h
    exact nodup_of_length_insertAll hnil (h.trans (Nat.zero_add _).symm)
  · intro h
    have hall : insertAll [] entries = [] ++ entries := insertAll_of_nodup h
    rw [hall, List.nil_append]

end ChainKit.Json
