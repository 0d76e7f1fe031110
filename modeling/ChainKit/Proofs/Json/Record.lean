import ChainKit.Json.Record

namespace ChainKit.Json
set_option autoImplicit true

theorem member?_cons_self (key : String) (v : Json) (members : List (String × Json)) :
    member? ((key, v) :: members) key = some v := List.lookup_cons_self

theorem member?_cons_of_ne (h : key ≠ name) (v : Json) (members : List (String × Json)) :
    member? ((name, v) :: members) key = member? members key := by
  rw [member?, List.lookup_cons, beq_false_of_ne h]
  rfl

theorem member?_of_mem {members : List (String × Json)} (hnodup : (members.map Prod.fst).Nodup)
    (h : (key, v) ∈ members) : member? members key = some v := by
  induction members with
  | nil => cases h
  | cons m members ih =>
    obtain ⟨name, w⟩ := m
    obtain ⟨hnew, hrest⟩ := List.nodup_cons.mp hnodup
    rcases List.mem_cons.mp h with heq | hmem
    · cases heq
      exact member?_cons_self key v members
    · have hkey : key ∈ members.map Prod.fst := List.mem_map.mpr ⟨_, hmem, rfl⟩
      have hne : key ≠ name := fun heq => hnew (heq ▸ hkey)
      rw [member?_cons_of_ne hne, ih hrest hmem]

namespace Source

theorem ofItems_eq_map (vs : List Json) : ofItems vs = vs.map ofJson := by
  induction vs with
  | nil => rfl
  | cons v vs ih => rw [ofItems, ih, List.map_cons]

theorem list?_ofJson (item? : Source → Option α) (vs : List Json) :
    list? item? (.ofJson (.arr vs)) = vs.mapM fun v => item? (.ofJson v) := by
  rw [ofJson, list?, ofItems_eq_map, List.mapM_map]
  rfl

theorem list?_eq_some {item? : Source → Option α} (h : list? item? s = some as) :
    ∃ items, s = .arr items ∧ items.mapM item? = some as := by
  cases s with
  | arr items => exact ⟨items, rfl, h⟩
  | _ => cases h

theorem list?_some (items : List Source) : list? some (.arr items) = some items := by
  have hmap : items.mapM (fun s => (pure (id s) : Option Source)) = some (items.map id) :=
    List.mapM_pure
  rwa [List.map_id] at hmap

theorem nullable?_of_eq_some {value? : Source → Option α} (hnull : value? .null = none)
    (h : value? s = some a) : nullable? value? s = some (some a) := by
  cases s with
  | null =>
    rw [hnull] at h
    cases h
  | _ => exact congrArg (Option.map some) h

theorem text?_of_eq_ok {parse : String → Except ε α} (h : parse s = .ok a) :
    text? parse (.ofJson (.str s)) = some a := by
  simp only [ofJson, text?, string?, Option.bind_some, h, Except.toOption]

theorem nat?_ofNat (h : n < bound) : nat? bound (.ofJson (.ofNat n)) = some n := by
  have hn : (n : Int) < bound := Int.ofNat_lt.mpr h
  simp [ofJson, Json.ofNat, Json.ofInt, nat?, hn]

end Source

namespace Record

theorem any_fst_map (members : List (String × Json)) (key : String) :
    ((members.map fun m => (m.1, Source.ofJson m.2)).any fun m => m.1 == key) = true ↔
      key ∈ members.map Prod.fst := by
  simp [List.any_eq_true]

theorem knownMembers?_ofMembers (hnodup : (members.map Prod.fst).Nodup)
    (hknown : ∀ m ∈ members, m.1 ∈ names) :
    knownMembers? names (Source.ofMembers members) =
      some (members.map fun m => (m.1, Source.ofJson m.2)) := by
  induction members with
  | nil => rfl
  | cons m members ih =>
    obtain ⟨key, v⟩ := m
    have hn := List.nodup_cons.mp hnodup
    have hrest := ih hn.2 fun m hm => hknown m (List.mem_cons_of_mem _ hm)
    have hkey : names.contains key = true :=
      List.contains_iff_mem.mpr (hknown (key, v) List.mem_cons_self)
    have hnew : ((members.map fun m => (m.1, Source.ofJson m.2)).any fun m => m.1 == key) = false :=
      Bool.eq_false_iff.mpr fun h => hn.1 ((any_fst_map members key).mp h)
    simp only [Source.ofMembers, knownMembers?, hrest, hkey, hnew, if_true]
    rfl

theorem ofSource?_ofJson (hnodup : (members.map Prod.fst).Nodup)
    (hknown : ∀ m ∈ members, m.1 ∈ names) :
    ofSource? names (.ofJson (.obj members)) =
      some ⟨members.map fun m => (m.1, Source.ofJson m.2)⟩ := by
  rw [Source.ofJson, ofSource?, knownMembers?_ofMembers hnodup hknown]
  rfl

theorem lookup_ofJson (members : List (String × Json)) (key : String) :
    (members.map fun m => (m.1, Source.ofJson m.2)).lookup key =
      (Json.member? members key).map Source.ofJson := by
  induction members with
  | nil => rfl
  | cons m members ih =>
    obtain ⟨name, v⟩ := m
    rw [List.map_cons, List.lookup_cons, Json.member?, List.lookup_cons]
    cases key == name with
    | true => rfl
    | false => exact ih

theorem required?_of_lookup {r : Record} {read? : Source → Option α}
    (h : r.fields.lookup name = some s) :
    r.required? name read? = read? s := by
  rw [required?, h]
  rfl

theorem optional?_of_lookup {r : Record} {read? : Source → Option α}
    (h : r.fields.lookup name = some s) :
    r.optional? name a read? = read? s := by
  rw [optional?, h]

end Record
end ChainKit.Json
