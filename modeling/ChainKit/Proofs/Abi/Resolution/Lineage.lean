import ChainKit.Proofs.Abi.Resolution.Bounds

namespace ChainKit.Abi.Document
set_option autoImplicit true

/-- The name that a name leads to through aliases, with the number of aliases that are passed. -/
inductive Leads (d : Document) : (steps : Nat) → String → String → Prop where
  | here : (∀ a ∈ d.aliases, a.name ≠ name) → Leads d 0 name name
  | via : a ∈ d.aliases → Leads d n a.target name → Leads d (n + 1) a.name name

theorem Leads.of_aliases {d d' : Document} (h : d.Leads n name base)
    (haliases : d'.aliases = d.aliases) : d'.Leads n name base := by
  induction h with
  | here h => exact .here (haliases ▸ h)
  | via ha _ ih => exact .via (haliases ▸ ha) ih

theorem aliasTarget?_eq_none {d : Document} (h : ∀ a ∈ d.aliases, a.name ≠ name) :
    d.aliasTarget? name = none := by
  cases ht : d.aliasTarget? name with
  | none => rfl
  | some target =>
    obtain ⟨a, ha, hname, -⟩ := aliasTarget?_eq_some ht
    exact absurd hname (h a ha)

theorem Leads.cases {d : Document} (hd : d.HasProperNames) (h : d.Leads n name base) :
    (d.aliasTarget? name = none ∧ n = 0 ∧ base = name) ∨
      ∃ target m, d.aliasTarget? name = some target ∧ n = m + 1 ∧ d.Leads m target base := by
  cases h with
  | here h => exact .inl ⟨aliasTarget?_eq_none h, rfl, rfl⟩
  | via ha h => exact .inr ⟨_, _, hd.aliasTarget?_of_mem ha, rfl, h⟩

theorem Leads.unique {d : Document} (hd : d.HasProperNames) (h : d.Leads n name base)
    (h' : d.Leads m name base') : n = m ∧ base = base' := by
  induction n generalizing name m with
  | zero =>
    rcases h.cases hd with ⟨ht, -, rfl⟩ | ⟨_, _, _, hn, _⟩
    · rcases h'.cases hd with ⟨-, rfl, rfl⟩ | ⟨_, _, ht', _, _⟩
      · exact ⟨rfl, rfl⟩
      · cases ht.symm.trans ht'
    · cases hn
  | succ n ih =>
    rcases h.cases hd with ⟨_, hn, _⟩ | ⟨target, k, ht, hn, h⟩
    · cases hn
    · cases hn
      rcases h'.cases hd with ⟨ht', _, _⟩ | ⟨target', k', ht', rfl, h'⟩
      · cases ht.symm.trans ht'
      · cases ht.symm.trans ht'
        obtain ⟨rfl, rfl⟩ := ih h h'
        exact ⟨rfl, rfl⟩

theorem leads_of_baseNameWithin {d : Document}
    (h : d.baseNameWithin fuel visited name = .ok base) : ∃ n, d.Leads n name base := by
  induction fuel generalizing visited name with
  | zero => cases h
  | succ fuel ih =>
    rw [baseNameWithin] at h
    split at h
    · rename_i hnone
      cases h
      refine ⟨0, .here ?_⟩
      intro a ha hname
      have hfind := List.find?_eq_none.mp (Option.map_eq_none_iff.mp hnone) a ha
      exact hfind (beq_of_eq hname)
    · rename_i target htarget
      split at h
      · cases h
      · obtain ⟨n, hn⟩ := ih h
        obtain ⟨a, ha, rfl, rfl⟩ := aliasTarget?_eq_some htarget
        exact ⟨n + 1, .via ha hn⟩

theorem Leads.baseNameWithin {d : Document} (hd : d.HasProperNames) (h : d.Leads n name base)
    (hfuel : n < fuel) (hvisited : ∀ v ∈ visited, ∀ m b, d.Leads m v b → n < m) :
    d.baseNameWithin fuel visited name = .ok base := by
  induction n generalizing name fuel visited with
  | zero =>
    obtain ⟨fuel, rfl⟩ := Nat.exists_eq_add_one.mpr (Nat.zero_lt_of_lt hfuel)
    rcases h.cases hd with ⟨ht, -, rfl⟩ | ⟨_, _, _, hn, _⟩
    · simp only [Document.baseNameWithin, ht]
    · cases hn
  | succ n ih =>
    obtain ⟨fuel, rfl⟩ := Nat.exists_eq_add_one.mpr (Nat.zero_lt_of_lt hfuel)
    rcases h.cases hd with ⟨_, hn, _⟩ | ⟨target, k, ht, hn, htgt⟩
    · cases hn
    · cases hn
      have hfresh : visited.contains name = false :=
        Result.contains_eq_false fun hmem => Nat.lt_irrefl _ (hvisited name hmem _ _ h)
      have hbelow : ∀ v ∈ name :: visited, ∀ m b, d.Leads m v b → n < m := by
        intro v hv m b hm
        cases hv with
        | head =>
          have := (h.unique hd hm).1
          omega
        | tail _ hv => exact Nat.lt_of_succ_lt (hvisited v hv m b hm)
      have hr := ih htgt (Nat.lt_of_succ_lt_succ hfuel) hbelow
      simp only [Document.baseNameWithin, ht, hfresh, hr]
      rfl

theorem baseName_eq_ok {d : Document} (hd : d.HasProperNames) :
    d.baseName name = .ok base ↔ ∃ n, d.Leads n name base := by
  constructor
  · exact leads_of_baseNameWithin
  · rintro ⟨n, h⟩
    rw [← baseNameWithin_of_le (Nat.le_max_right (n + 1) _)]
    exact h.baseNameWithin hd (Nat.lt_of_succ_le (Nat.le_max_left _ _)) nofun

def IsBaseOf (d : Document) (base s : StructDef) : Prop :=
  base ∈ d.structs ∧ s.base ≠ "" ∧ ∃ n, d.Leads n s.base base.name

/-- A struct behind its bases, the outermost first. -/
inductive Lineage (d : Document) : StructDef → List StructDef → Prop where
  | root : s.base = "" → Lineage d s [s]
  | base : d.IsBaseOf b s → Lineage d b chain → Lineage d s (chain ++ [s])

theorem Lineage.eq_append {d : Document} (h : d.Lineage s chain) :
    ∃ front, chain = front ++ [s] := by
  cases h with
  | root => exact ⟨[], rfl⟩
  | base => exact ⟨_, rfl⟩

theorem Lineage.mem_structs {d : Document} (h : d.Lineage s chain) (hs : s ∈ d.structs)
    (hb : b ∈ chain) : b ∈ d.structs := by
  induction h with
  | root =>
    cases List.mem_singleton.mp hb
    exact hs
  | base hbase _ ih =>
    rcases List.mem_append.mp hb with hb | hb
    · exact ih hbase.1 hb
    · cases List.mem_singleton.mp hb
      exact hs

theorem nodup_names_append : ((front ++ [s]).map StructDef.name).Nodup ↔
    (front.map StructDef.name).Nodup ∧ ∀ b ∈ front, b.name ≠ s.name := by
  rw [List.map_append, List.nodup_append]
  constructor
  · rintro ⟨hfront, -, hne⟩
    exact ⟨hfront, fun b hb => hne b.name (List.mem_map_of_mem hb) s.name List.mem_cons_self⟩
  · rintro ⟨hfront, hne⟩
    refine ⟨hfront, List.pairwise_singleton _ _, ?_⟩
    intro n hn m hm
    obtain ⟨b, hb, rfl⟩ := List.mem_map.mp hn
    cases List.mem_singleton.mp hm
    exact hne b hb

/-- The chain that a walk gives is the lineage of the struct, and no base in it was visited. -/
theorem lineage_of_lineageWithin {d : Document} (hd : d.HasProperNames)
    (h : d.lineageWithin start fuel visited s = .ok chain) :
    d.Lineage s chain ∧ ∃ front, chain = front ++ [s] ∧ (front.map StructDef.name).Nodup ∧
      ∀ b ∈ front, b.name ∉ visited := by
  induction fuel generalizing visited s chain with
  | zero => cases h
  | succ fuel ih =>
    by_cases hs : s.base = ""
    · rw [lineageWithin, if_pos hs] at h
      cases h
      exact ⟨.root hs, [], rfl, List.nodup_nil, fun b hb => absurd hb List.not_mem_nil⟩
    · rw [lineageWithin, if_neg hs] at h
      obtain ⟨name, hname, h⟩ := Result.bind_eq_ok.mp h
      split at h
      · cases h
      · rename_i base hbase
        split at h
        · cases h
        · rename_i hnew
          obtain ⟨chain, hchain, h⟩ := Result.bind_eq_ok.mp h
          cases h
          have hmem := List.mem_of_find?_eq_some hbase
          have hfound := List.find?_some hbase
          have hbname : base.name = name := eq_of_beq hfound
          have hbase : d.IsBaseOf base s := ⟨hmem, hs, hbname ▸ (baseName_eq_ok hd).mp hname⟩
          obtain ⟨hlin, front, rfl, hnodup, hfront⟩ := ih hchain
          have hnotin : base.name ∉ visited := fun hm => hnew (List.contains_iff_mem.mpr hm)
          refine ⟨.base hbase hlin, _, rfl, ?_, ?_⟩
          · refine nodup_names_append.mpr ⟨hnodup, fun b hb he => hfront b hb ?_⟩
            exact he ▸ List.mem_cons_self
          · intro b hb
            rcases List.mem_append.mp hb with hb | hb
            · exact fun hv => hfront b hb (List.mem_cons_of_mem _ hv)
            · cases List.mem_singleton.mp hb
              exact hnotin

theorem Lineage.lineageWithin {d : Document} (hd : d.HasProperNames) (h : d.Lineage s chain)
    (hfuel : chain.length ≤ fuel) (hnodup : (chain.map StructDef.name).Nodup)
    (hvisited : ∀ front, chain = front ++ [s] → ∀ b ∈ front, b.name ∉ visited) :
    d.lineageWithin start fuel visited s = .ok chain := by
  induction h generalizing fuel visited with
  | root hs =>
    obtain ⟨fuel, rfl⟩ := Nat.exists_eq_add_one.mpr hfuel
    rw [Document.lineageWithin, if_pos hs]
  | @base b s chain hbase hchain ih =>
    rw [List.length_append, List.length_singleton] at hfuel
    obtain ⟨fuel, rfl⟩ := Nat.exists_eq_add_one.mpr (Nat.zero_lt_of_lt hfuel)
    obtain ⟨hmem, hs, hleads⟩ := hbase
    obtain ⟨front, rfl⟩ := hchain.eq_append
    have hnames := (nodup_names_append.mp hnodup).1
    have hfresh : visited.contains b.name = false :=
      Result.contains_eq_false (hvisited _ rfl b (List.mem_append_right _ List.mem_cons_self))
    have hbelow : ∀ front', front ++ [b] = front' ++ [b] →
        ∀ c ∈ front', c.name ∉ b.name :: visited := by
      intro front' hf c hc hv
      cases List.append_cancel_right hf
      rcases List.mem_cons.mp hv with he | hv
      · exact (nodup_names_append.mp hnames).2 c hc he
      · exact hvisited _ rfl c (List.mem_append_left _ hc) hv
    have hr := ih (Nat.le_of_succ_le_succ hfuel) hnames hbelow
    rw [Document.lineageWithin, if_neg hs, (baseName_eq_ok hd).mpr hleads]
    simp only [bind, Except.bind, hd.struct?_of_mem hmem, hfresh, hr]
    rfl

theorem lineage_eq_ok {d : Document} (hd : d.HasProperNames) : d.lineage s = .ok chain ↔
    d.Lineage s chain ∧ (chain.map StructDef.name).Nodup := by
  constructor
  · intro h
    obtain ⟨hlin, front, rfl, hnodup, hfront⟩ := lineage_of_lineageWithin hd h
    refine ⟨hlin, ?_⟩
    exact nodup_names_append.mpr ⟨hnodup, fun b hb he => hfront b hb (he ▸ List.mem_cons_self)⟩
  · rintro ⟨hlin, hnodup⟩
    rw [← lineageWithin_of_le (Nat.le_max_right chain.length _)]
    refine hlin.lineageWithin hd (Nat.le_max_left _ _) hnodup ?_
    rintro front rfl b hb hv
    exact (nodup_names_append.mp hnodup).2 b hb (List.mem_singleton.mp hv)

end ChainKit.Abi.Document
