import ChainKit.Abi.Resolution
import ChainKit.Proofs.Abi.Resolution.Meaning

namespace ChainKit.Abi

section

variable {α : Type} (key : α → String) (weight : α → Nat)

/-- The weight of the entries that are not visited yet. -/
def unvisited (visited : List String) : List α → Nat
  | [] => 0
  | x :: xs => (if visited.contains (key x) then 0 else weight x) + unvisited visited xs

theorem unvisited_cons_le (name : String) (visited : List String) (xs : List α) :
    unvisited key weight (name :: visited) xs ≤ unvisited key weight visited xs := by
  induction xs with
  | nil => exact Nat.le_refl 0
  | cons x xs ih =>
    refine Nat.add_le_add ?_ ih
    cases hx : visited.contains (key x) with
    | false => split <;> simp
    | true =>
      have hmem := List.contains_iff_mem.mp hx
      have hle : (if (name :: visited).contains (key x) then 0 else weight x) = 0 :=
        if_pos (List.contains_iff_mem.mpr (List.mem_cons_of_mem _ hmem))
      exact Nat.le_trans (Nat.le_of_eq hle) (Nat.zero_le _)

theorem unvisited_visit {x : α} {xs : List α} {visited : List String} (hx : x ∈ xs)
    (hnew : visited.contains (key x) = false) :
    weight x + unvisited key weight (key x :: visited) xs ≤ unvisited key weight visited xs := by
  induction xs with
  | nil => cases hx
  | cons y ys ih =>
    cases hx with
    | head =>
      have hle := unvisited_cons_le key weight (key x) visited ys
      simp only [unvisited, hnew, List.contains_cons, BEq.rfl, Bool.true_or, if_true]
      simp only [Bool.false_eq_true, if_false]
      omega
    | tail _ hx =>
      have hle := ih hx
      simp only [unvisited, List.contains_cons]
      cases visited.contains (key y) with
      | false => split <;> simp only [Bool.false_eq_true, if_false] <;> omega
      | true => simp only [Bool.or_true, if_true]; omega

end

namespace Document
set_option autoImplicit true

variable (d : Document)

/-- More steps than the walk from a name can take. -/
def stepsLeft (visited : List String) (name : String) : Nat :=
  name.length + 1 + unvisited AliasDef.name (fun a => a.target.length + 1) visited d.aliases

theorem stepsLeft_nil (name : String) : d.stepsLeft [] name = d.stepBound name := by
  have hsum (as : List AliasDef) : unvisited AliasDef.name (fun a => a.target.length + 1) [] as =
      total (as.map fun a => a.target.length + 1) := by
    induction as with
    | nil => rfl
    | cons a as ih =>
      rw [unvisited, ih, List.map_cons, total]
      rfl
  rw [stepsLeft, hsum, stepBound]

theorem length_lt_of_split? (h : Suffix.split? name = some (suffix, stem)) :
    stem.length < name.length := by
  have hpos : 0 < suffix.text.length := by cases suffix <;> decide
  rw [Suffix.eq_of_split? h, String.length_append]
  omega

theorem stepsLeft_alias {d : Document} (h : d.aliasTarget? name = some target)
    (hnew : visited.contains name = false) :
    d.stepsLeft (name :: visited) target < d.stepsLeft visited name := by
  obtain ⟨a, ha, rfl, rfl⟩ := aliasTarget?_eq_some h
  have := unvisited_visit AliasDef.name (fun a => a.target.length + 1) ha hnew
  rw [stepsLeft, stepsLeft]
  omega

theorem resolveWithin_congr {d : Document} (h : d.stepsLeft visited name ≤ fuel)
    (h' : d.stepsLeft visited name ≤ fuel') :
    d.resolveWithin fuel visited name = d.resolveWithin fuel' visited name := by
  induction fuel generalizing visited name fuel' with
  | zero =>
    rw [stepsLeft] at h
    omega
  | succ fuel ih =>
    obtain ⟨fuel', rfl⟩ : ∃ k, fuel' = k + 1 := by
      rw [stepsLeft] at h'
      exact ⟨fuel' - 1, by omega⟩
    rw [resolveWithin, resolveWithin]
    congr 1
    funext m
    split
    · rfl
    · rename_i suffix stem hnone hsuffix
      have hlt : d.stepsLeft visited stem < d.stepsLeft visited name := by
        have := length_lt_of_split? hsuffix
        rw [stepsLeft, stepsLeft]
        omega
      have hfuel : d.stepsLeft visited stem ≤ fuel := by omega
      have hfuel' : d.stepsLeft visited stem ≤ fuel' := by omega
      rw [ih hfuel hfuel']
    · rfl
    · rfl
    · rename_i target hnone hsuffix hb htarget
      split
      · rfl
      · rename_i hnew
        have hlt := stepsLeft_alias htarget (Bool.eq_false_iff.mpr hnew)
        have hfuel : d.stepsLeft (name :: visited) target ≤ fuel := by omega
        have hfuel' : d.stepsLeft (name :: visited) target ≤ fuel' := by omega
        rw [ih hfuel hfuel']

/-- Resolution takes no more steps than its bound, on any document. -/
theorem resolveWithin_of_le {d : Document} (h : d.stepBound name ≤ fuel) :
    d.resolveWithin fuel [] name = d.resolve name := by
  have hb := d.stepsLeft_nil name
  exact resolveWithin_congr (by omega) (by omega)

/-- More aliases than the walk from the name of a base can pass. -/
def aliasesLeft (visited : List String) : Nat :=
  unvisited AliasDef.name (fun _ => 1) visited d.aliases + 1

theorem unvisited_one_le {α : Type} (key : α → String) (visited : List String) (xs : List α) :
    unvisited key (fun _ => 1) visited xs ≤ xs.length := by
  induction xs with
  | nil => exact Nat.le_refl 0
  | cons x xs ih =>
    rw [unvisited, List.length_cons]
    split <;> omega

theorem baseNameWithin_congr {d : Document} (h : d.aliasesLeft visited ≤ fuel)
    (h' : d.aliasesLeft visited ≤ fuel') :
    d.baseNameWithin fuel visited name = d.baseNameWithin fuel' visited name := by
  induction fuel generalizing visited name fuel' with
  | zero =>
    rw [aliasesLeft] at h
    omega
  | succ fuel ih =>
    obtain ⟨fuel', rfl⟩ : ∃ k, fuel' = k + 1 := by
      rw [aliasesLeft] at h'
      exact ⟨fuel' - 1, by omega⟩
    rw [baseNameWithin, baseNameWithin]
    split
    · rfl
    · rename_i target htarget
      split
      · rfl
      · rename_i hnew
        obtain ⟨a, ha, rfl, rfl⟩ := aliasTarget?_eq_some htarget
        have hlt := unvisited_visit AliasDef.name (fun _ => 1) ha (Bool.eq_false_iff.mpr hnew)
        rw [aliasesLeft] at h h'
        have hfuel : d.aliasesLeft (a.name :: visited) ≤ fuel := by
          rw [aliasesLeft]
          omega
        have hfuel' : d.aliasesLeft (a.name :: visited) ≤ fuel' := by
          rw [aliasesLeft]
          omega
        exact ih hfuel hfuel'

theorem baseNameWithin_of_le {d : Document} (h : d.aliases.length + 2 ≤ fuel) :
    d.baseNameWithin fuel [] name = d.baseName name := by
  have hb := unvisited_one_le AliasDef.name [] d.aliases
  have hfuel : d.aliasesLeft [] ≤ d.aliases.length + 2 := by
    rw [aliasesLeft]
    omega
  exact baseNameWithin_congr (Nat.le_trans hfuel h) hfuel

/-- More structs than the walk through the bases of a struct can pass. -/
def structsLeft (visited : List String) : Nat :=
  unvisited StructDef.name (fun _ => 1) visited d.structs + 1

theorem lineageWithin_congr {d : Document} (h : d.structsLeft visited ≤ fuel)
    (h' : d.structsLeft visited ≤ fuel') :
    d.lineageWithin start fuel visited s = d.lineageWithin start fuel' visited s := by
  induction fuel generalizing visited s fuel' with
  | zero =>
    rw [structsLeft] at h
    omega
  | succ fuel ih =>
    obtain ⟨fuel', rfl⟩ : ∃ k, fuel' = k + 1 := by
      rw [structsLeft] at h'
      exact ⟨fuel' - 1, by omega⟩
    rw [lineageWithin, lineageWithin]
    split
    · rfl
    · congr 1
      funext name
      split
      · rfl
      · rename_i base hbase
        split
        · rfl
        · rename_i hnew
          have hmem := List.mem_of_find?_eq_some hbase
          have hlt := unvisited_visit StructDef.name (fun _ => 1) hmem (Bool.eq_false_iff.mpr hnew)
          rw [structsLeft] at h h'
          have hfuel : d.structsLeft (base.name :: visited) ≤ fuel := by
            rw [structsLeft]
            omega
          have hfuel' : d.structsLeft (base.name :: visited) ≤ fuel' := by
            rw [structsLeft]
            omega
          rw [ih hfuel hfuel']

theorem lineageWithin_of_le {d : Document} (h : d.structs.length + 1 ≤ fuel) :
    d.lineageWithin s.name fuel [s.name] s = d.lineage s := by
  have hb := unvisited_one_le StructDef.name [s.name] d.structs
  have hfuel : d.structsLeft [s.name] ≤ d.structs.length + 1 := by
    rw [structsLeft]
    omega
  exact lineageWithin_congr (Nat.le_trans hfuel h) hfuel

end Document
end ChainKit.Abi
