import ChainKit.Abi.Contract
import ChainKit.Proofs.Abi.Resolution.WellFormed
import Mathlib.Data.List.Nodup

namespace ChainKit.Abi
set_option autoImplicit true

namespace Document

def actionEntries (d : Document) : List (Name × String) := d.actions.map fun a => (a.name, a.type)

def tableEntries (d : Document) : List (Name × String) := d.tables.map fun t => (t.name, t.type)

def resultEntries (d : Document) : List (Name × String) :=
  d.actionResults.map fun r => (r.name, r.type)

theorem mem_references_of_action {d : Document} (h : (name, type) ∈ d.actionEntries) : type ∈ d.references := by
  obtain ⟨a, ha, heq⟩ := List.mem_map.mp h
  cases heq
  simp only [references, List.mem_append]
  exact .inl (.inl (.inr (List.mem_map_of_mem ha)))

theorem mem_references_of_table {d : Document} (h : (name, type) ∈ d.tableEntries) : type ∈ d.references := by
  obtain ⟨t, ht, heq⟩ := List.mem_map.mp h
  cases heq
  simp only [references, List.mem_append]
  exact .inl (.inr (List.mem_map_of_mem ht))

theorem mem_references_of_result {d : Document} (h : (name, type) ∈ d.resultEntries) : type ∈ d.references := by
  obtain ⟨r, hr, heq⟩ := List.mem_map.mp h
  cases heq
  simp only [references, List.mem_append]
  exact .inr (List.mem_map_of_mem hr)

end Document

theorem TypeTable.view_of_lookup? {t : TypeTable} (h : t.lookup? name = some type) :
    t.view name = .ok type := by
  rw [view, viewWithin, h]
  rfl

namespace Contract

/-- Whether a lookup has for each name what a list has, and nothing for other names. -/
structure IsLookupOf (lookup? : Name → Option String) (entries : List (Name × String)) : Prop where
  entry : ∀ e ∈ entries, lookup? e.1 = some e.2
  absent : ∀ name, name ∉ entries.map Prod.fst → lookup? name = none

theorem findLast?_eq_some {entries : List (Name × ν)} : findLast? key entries = some v ↔
    ∃ front back, entries = front ++ (key, v) :: back ∧ key ∉ back.map Prod.fst := by
  rw [findLast?, List.lookup_eq_some_iff]
  constructor
  · rintro ⟨back, front, heq, hback⟩
    refine ⟨front.reverse, back.reverse, List.reverse_inj.mp ?_, ?_⟩
    · simp [heq]
    · intro hmem
      obtain ⟨e, he, hname⟩ := List.mem_map.mp hmem
      have hne := hback e (List.mem_reverse.mp he)
      simp [hname] at hne
  · rintro ⟨front, back, rfl, hback⟩
    refine ⟨back.reverse, front.reverse, by simp, ?_⟩
    intro e he
    have hne : key ≠ e.1 := by
      rintro rfl
      exact hback (List.mem_map_of_mem (List.mem_reverse.mp he))
    simpa using hne

theorem findLast?_eq_none {entries : List (Name × ν)} :
    findLast? key entries = none ↔ key ∉ entries.map Prod.fst := by
  rw [findLast?, List.lookup_eq_none_iff]
  simp only [List.mem_reverse, bne_iff_ne, List.mem_map, not_exists, not_and]
  exact forall₂_congr fun e _ => ne_comm

theorem mem_of_findLast? {entries : List (Name × ν)} (h : findLast? key entries = some v) :
    (key, v) ∈ entries := by
  obtain ⟨front, back, rfl, -⟩ := findLast?_eq_some.mp h
  exact List.mem_append_right _ List.mem_cons_self

/-- The last entries of a list are all of them just if entries of one name are the same. -/
theorem isLookupOf_findLast? {entries : List (Name × String)} :
    IsLookupOf (findLast? · entries) entries ↔
      ∀ e ∈ entries, ∀ e' ∈ entries, e.1 = e'.1 → e.2 = e'.2 := by
  constructor
  · intro h e he e' he' hname
    have heq := (h.entry e he).symm.trans (hname ▸ h.entry e' he')
    exact Option.some.inj heq
  · intro h
    refine ⟨fun e he => ?_, fun name hname => findLast?_eq_none.mpr hname⟩
    cases hlast : findLast? e.1 entries with
    | none => exact absurd (List.mem_map_of_mem he) (findLast?_eq_none.mp hlast)
    | some v => rw [h e he (e.1, v) (mem_of_findLast? hlast) rfl]

theorem isLookupOf_of_nodup {entries : List (Name × String)}
    (h : (entries.map Prod.fst).Nodup) : IsLookupOf (findLast? · entries) entries := by
  apply isLookupOf_findLast?.mpr
  intro e he e' he' hname
  exact congrArg Prod.snd (List.inj_on_of_nodup_map h he he' hname)

theorem ofDocument_eq_ok : ofDocument d = .ok c ↔
    d.hasKnownVersion = true ∧ ∃ types, TypeTable.build d = .ok types ∧ c = ⟨d, types⟩ := by
  rw [ofDocument]
  split
  next hversion =>
    rw [Result.map_eq_ok]
    exact ⟨fun ⟨types, htypes, hc⟩ => ⟨hversion, types, htypes, hc.symm⟩,
      fun ⟨_, types, htypes, hc⟩ => ⟨types, htypes, hc.symm⟩⟩
  next hversion => exact ⟨nofun, fun h => absurd h.1 hversion⟩

theorem document_of_ofDocument (h : ofDocument d = .ok c) : c.document = d := by
  obtain ⟨-, types, -, rfl⟩ := ofDocument_eq_ok.mp h
  rfl

theorem isOf_of_ofDocument (h : ofDocument d = .ok c) : c.types.IsOf d := by
  obtain ⟨-, types, htypes, rfl⟩ := ofDocument_eq_ok.mp h
  exact TypeTable.isOf_of_build htypes

theorem types_lookup? (h : ofDocument d = .ok c) (hname : name ∈ d.references) :
    ∃ type, d.Means name type ∧ c.types.lookup? name = some type ∧
      c.types.view name = .ok type := by
  have ht := isOf_of_ofDocument h
  obtain ⟨type, hmeans, hlookup⟩ := ht.lookup? (List.mem_append_right _ hname)
  exact ⟨type, hmeans, hlookup, TypeTable.view_of_lookup? hlookup⟩

theorem actionType?_eq (h : ofDocument d = .ok c) :
    c.actionType? = (findLast? · d.actionEntries) := by
  funext name
  rw [actionType?, document_of_ofDocument h]
  rfl

theorem tableType?_eq (h : ofDocument d = .ok c) :
    c.tableType? = (findLast? · d.tableEntries) := by
  funext name
  rw [tableType?, document_of_ofDocument h]
  rfl

theorem resultType?_eq (h : ofDocument d = .ok c) :
    c.resultType? = (findLast? · d.resultEntries) := by
  funext name
  rw [resultType?, document_of_ofDocument h]
  rfl

theorem isLookupOf_actionType? (h : ofDocument d = .ok c) :
    IsLookupOf c.actionType? d.actionEntries := by
  rw [actionType?_eq h]
  apply isLookupOf_of_nodup
  have hnodup := (isOf_of_ofDocument h).checks.actions.2
  rwa [Document.actionEntries, List.map_map]

theorem isLookupOf_tableType? (h : ofDocument d = .ok c) :
    IsLookupOf c.tableType? d.tableEntries := by
  rw [tableType?_eq h]
  apply isLookupOf_of_nodup
  have hnodup := (isOf_of_ofDocument h).checks.tables.2
  rwa [Document.tableEntries, List.map_map]

/-- The name of an action or of a table has the type that the document gives it, and the name of a
result the type of the last result of that name: the one type of its results, if they have one.
Other names have none, and what has a type has one that the contract knows. -/
theorem lookup_exact (h : ofDocument d = .ok c) :
    IsLookupOf c.actionType? d.actionEntries ∧ IsLookupOf c.tableType? d.tableEntries ∧
    (∀ name type, c.resultType? name = some type ↔
      ∃ front back, d.resultEntries = front ++ (name, type) :: back ∧
        name ∉ back.map Prod.fst) ∧
    (∀ name, name ∉ d.resultEntries.map Prod.fst → c.resultType? name = none) ∧
    (IsLookupOf c.resultType? d.resultEntries ↔
      ∀ e ∈ d.resultEntries, ∀ e' ∈ d.resultEntries, e.1 = e'.1 → e.2 = e'.2) ∧
    ∀ name type, c.actionType? name = some type ∨ c.tableType? name = some type ∨
      c.resultType? name = some type →
        ∃ t, d.Means type t ∧ c.types.lookup? type = some t ∧ c.types.view type = .ok t := by
  refine ⟨isLookupOf_actionType? h, isLookupOf_tableType? h, ?_, ?_, ?_, ?_⟩
  · intro name type
    rw [resultType?_eq h]
    exact findLast?_eq_some
  · intro name hname
    rw [resultType?_eq h]
    exact findLast?_eq_none.mpr hname
  · rw [resultType?_eq h]
    exact isLookupOf_findLast?
  · intro name type htype
    apply types_lookup? h
    rcases htype with haction | htable | hresult
    · rw [actionType?_eq h] at haction
      exact Document.mem_references_of_action (mem_of_findLast? haction)
    · rw [tableType?_eq h] at htable
      exact Document.mem_references_of_table (mem_of_findLast? htable)
    · rw [resultType?_eq h] at hresult
      exact Document.mem_references_of_result (mem_of_findLast? hresult)

def notesDocument : Document :=
  { structs := [⟨"note", "", [⟨"text", "string"⟩]⟩]
    actions := [⟨⟨1⟩, "note", ""⟩]
    tables := [⟨⟨2⟩, "", [], [], "note[]"⟩]
    actionResults? := some [⟨⟨1⟩, "uint32"⟩] }

theorem lookup_exact_notes : ∃ c, ofDocument notesDocument = .ok c ∧
    c.actionType? ⟨1⟩ = some "note" ∧ c.tableType? ⟨2⟩ = some "note[]" ∧
    c.resultType? ⟨1⟩ = some "uint32" ∧ c.resultType? ⟨2⟩ = none ∧
    ∃ t, c.types.view "note[]" = .ok t := by
  have hsome : (ofDocument notesDocument).toOption.isSome := by decide +kernel
  obtain ⟨c, hc⟩ := Option.isSome_iff_exists.mp hsome
  have hok := Result.toOption_eq_some.mp hc
  obtain ⟨hactions, htables, -, habsent, hresults, htypes⟩ := lookup_exact hok
  have htable := htables.entry (⟨2⟩, "note[]") (by decide)
  obtain ⟨t, -, -, hview⟩ := htypes _ _ (.inr (.inl htable))
  exact ⟨c, hok, hactions.entry (⟨1⟩, "note") (by decide), htable,
    (hresults.mpr (by decide)).entry (⟨1⟩, "uint32") (by decide), habsent ⟨2⟩ (by decide), t, hview⟩

def twiceDocument : Document :=
  { actionResults? := some [⟨⟨1⟩, "uint8"⟩, ⟨⟨1⟩, "uint16"⟩] }

/-- A document with two results of one name is a contract, and the first result is lost. -/
theorem not_isLookupOf_resultType? : ∃ c, ofDocument twiceDocument = .ok c ∧
    ((⟨1⟩, "uint8") : Name × String) ∈ twiceDocument.resultEntries ∧
    c.resultType? ⟨1⟩ = some "uint16" ∧ ¬IsLookupOf c.resultType? twiceDocument.resultEntries := by
  have hsome : (ofDocument twiceDocument).toOption.isSome := by decide +kernel
  obtain ⟨c, hc⟩ := Option.isSome_iff_exists.mp hsome
  have hok := Result.toOption_eq_some.mp hc
  have hresult : c.resultType? ⟨1⟩ = some "uint16" := by
    rw [resultType?_eq hok]
    rfl
  refine ⟨c, hok, by decide, hresult, ?_⟩
  intro h
  have hfirst : c.resultType? ⟨1⟩ = some "uint8" := h.entry (⟨1⟩, "uint8") (by decide)
  exact absurd (hresult.symm.trans hfirst) (by decide)

end Contract
end ChainKit.Abi
