import ChainKit.Json.Source

namespace ChainKit.Json

mutual

/-- How deep arrays and objects nest in a value. -/
def nesting : Json → Nat
  | .arr items => itemsNesting items + 1
  | .obj members => membersNesting members + 1
  | _ => 0

def itemsNesting : List Json → Nat
  | [] => 0
  | v :: rest => max v.nesting (itemsNesting rest)

def membersNesting : List (String × Json) → Nat
  | [] => 0
  | (_, v) :: rest => max v.nesting (membersNesting rest)

end

variable {n : Nat}

theorem itemsNesting_le {vs : List Json} : itemsNesting vs ≤ n ↔ ∀ v ∈ vs, v.nesting ≤ n := by
  induction vs with
  | nil => exact ⟨fun _ => nofun, fun _ => Nat.zero_le n⟩
  | cons v vs ih => rw [itemsNesting, Nat.max_le, ih, List.forall_mem_cons]

theorem membersNesting_le {ms : List (String × Json)} :
    membersNesting ms ≤ n ↔ ∀ m ∈ ms, m.2.nesting ≤ n := by
  induction ms with
  | nil => exact ⟨fun _ => nofun, fun _ => Nat.zero_le n⟩
  | cons m ms ih => rw [membersNesting, Nat.max_le, ih, List.forall_mem_cons]

namespace Source

mutual

/-- How deep arrays and objects nest in a text. -/
def nesting : Source → Nat
  | .arr items => itemsNesting items + 1
  | .obj members => membersNesting members + 1
  | _ => 0

def itemsNesting : List Source → Nat
  | [] => 0
  | s :: rest => max s.nesting (itemsNesting rest)

def membersNesting : List (Option String × Source) → Nat
  | [] => 0
  | (_, s) :: rest => max s.nesting (membersNesting rest)

end

mutual

/-- A text that does not nest too deep has the same value under any other limit that allows it. -/
theorem toJson?_of_nesting_le : ∀ {s : Source} {levels levels' : Nat}, s.nesting ≤ levels →
    s.nesting ≤ levels' → s.toJson? levels = s.toJson? levels'
  | .null, _, _, _, _ => by rw [toJson?, toJson?]
  | .bool _, _, _, _, _ => by rw [toJson?, toJson?]
  | .num _, _, _, _, _ => by rw [toJson?, toJson?]
  | .str _, _, _, _, _ => by rw [toJson?, toJson?]
  | .arr items, levels + 1, levels' + 1, h, h' => by
    rw [nesting] at h h'
    rw [toJson?, toJson?, itemsToJson?_of_nesting_le (Nat.le_of_succ_le_succ h)
      (Nat.le_of_succ_le_succ h')]
  | .obj members, levels + 1, levels' + 1, h, h' => by
    rw [nesting] at h h'
    rw [toJson?, toJson?, membersToJson?_of_nesting_le (Nat.le_of_succ_le_succ h)
      (Nat.le_of_succ_le_succ h')]

theorem itemsToJson?_of_nesting_le : ∀ {items : List Source} {levels levels' : Nat},
    itemsNesting items ≤ levels → itemsNesting items ≤ levels' →
    itemsToJson? levels items = itemsToJson? levels' items
  | [], _, _, _, _ => rfl
  | s :: rest, levels, levels', h, h' => by
    rw [itemsNesting, Nat.max_le] at h h'
    rw [itemsToJson?, itemsToJson?, toJson?_of_nesting_le h.1 h'.1,
      itemsToJson?_of_nesting_le h.2 h'.2]

theorem membersToJson?_of_nesting_le : ∀ {members : List (Option String × Source)}
    {levels levels' : Nat} {done : List (String × Json)},
    membersNesting members ≤ levels → membersNesting members ≤ levels' →
    membersToJson? levels done members = membersToJson? levels' done members
  | [], _, _, _, _, _ => rfl
  | (key, s) :: rest, levels, levels', done, h, h' => by
    rw [membersNesting, Nat.max_le] at h h'
    have hs := toJson?_of_nesting_le h.1 h'.1
    cases key with
    | none => rfl
    | some k =>
      cases hv : s.toJson? levels' with
      | none => simp only [membersToJson?, hs, hv]
      | some v =>
        simp only [membersToJson?, hs, hv]
        exact membersToJson?_of_nesting_le h.2 h'.2

end

mutual

theorem toJson?_of_lt_nesting : ∀ {s : Source} {levels : Nat}, levels < s.nesting →
    s.toJson? levels = none
  | .arr _, 0, _ => rfl
  | .obj _, 0, _ => rfl
  | .arr items, levels + 1, h => by
    rw [nesting] at h
    rw [toJson?, itemsToJson?_of_lt_nesting (Nat.lt_of_succ_lt_succ h)]
    rfl
  | .obj members, levels + 1, h => by
    rw [nesting] at h
    rw [toJson?, membersToJson?_of_lt_nesting (Nat.lt_of_succ_lt_succ h)]
    rfl

theorem itemsToJson?_of_lt_nesting : ∀ {items : List Source} {levels : Nat},
    levels < itemsNesting items → itemsToJson? levels items = none
  | s :: rest, levels, h => by
    rw [itemsNesting] at h
    by_cases hs : levels < s.nesting
    · rw [itemsToJson?, toJson?_of_lt_nesting hs]
    · rw [itemsToJson?, itemsToJson?_of_lt_nesting (by omega)]
      cases toJson? levels s <;> rfl

theorem membersToJson?_of_lt_nesting : ∀ {members : List (Option String × Source)} {levels : Nat}
    {done : List (String × Json)}, levels < membersNesting members →
    membersToJson? levels done members = none
  | (key, s) :: rest, levels, done, h => by
    rw [membersNesting] at h
    cases key with
    | none => rfl
    | some k =>
      by_cases hs : levels < s.nesting
      · simp only [membersToJson?, toJson?_of_lt_nesting hs]
      · cases hv : s.toJson? levels with
        | none => simp only [membersToJson?, hv]
        | some v =>
          simp only [membersToJson?, hv]
          exact membersToJson?_of_lt_nesting (by omega)

end

end Source
end ChainKit.Json
