import ChainKit.Proofs.Abi.Resolution.Bounds

namespace ChainKit.Abi

namespace Resolving
set_option autoImplicit true

theorem bind_eq_ok {x : Resolving ε α} {f : α → Resolving ε β} :
    (x >>= f) m = .ok (b, m') ↔ ∃ a m₁, x m = .ok (a, m₁) ∧ f a m₁ = .ok (b, m') := by
  constructor
  · intro h
    obtain ⟨⟨a, m₁⟩, hx, hf⟩ := Result.bind_eq_ok.mp h
    exact ⟨a, m₁, hx, hf⟩
  · rintro ⟨a, m₁, hx, hf⟩
    exact Result.bind_eq_ok.mpr ⟨(a, m₁), hx, hf⟩

theorem bind_apply {x : Resolving ε α} {f : α → Resolving ε β} (h : x m = .ok (a, m₁)) :
    (x >>= f) m = f a m₁ := by
  rw [show (x >>= f) m = x m >>= fun p => f p.1 p.2 from rfl, h]
  rfl

theorem get_bind_apply {f : Meanings → Resolving ε β} : (get >>= f) m = f m m := rfl

end Resolving

namespace Meanings
set_option autoImplicit true

/-- Whether each name is remembered for what it means, and all structs and variants are
remembered. -/
structure AreSound (m : Meanings) (d : Document) : Prop where
  means : ∀ name t, m.lookup? name = some t → d.Means name t
  declared : ∀ name t, d.Declares name t → m.lookup? name = some t

/-- What has become of the meanings after names were met. -/
structure After (d : Document) (names : List String) (m m' : Meanings) : Prop where
  sound : m'.AreSound d
  kept : ∀ name, (m.lookup? name).isSome → (m'.lookup? name).isSome
  met : ∀ name ∈ names, (m'.lookup? name).isSome

variable {d : Document} {m m' : Meanings}

theorem lookup?_cons_self : lookup? ⟨(name, t) :: entries, ts⟩ name = some t :=
  List.lookup_cons_self

theorem lookup?_cons_of_ne (h : other ≠ name) :
    lookup? ⟨(name, t) :: entries, ts⟩ other = lookup? ⟨entries, u⟩ other := by
  rw [lookup?, List.lookup_cons, beq_false_of_ne h]
  rfl

theorem AreSound.insert (hd : d.HasProperNames) (hm : m.AreSound d) (ht : d.Means name t) :
    AreSound ⟨(name, t) :: m.names, ts⟩ d := by
  constructor
  · intro other u h
    by_cases he : other = name
    · subst he
      cases lookup?_cons_self.symm.trans h
      exact ht
    · rw [lookup?_cons_of_ne (u := m.types) he] at h
      exact hm.means other u h
  · intro other u h
    by_cases he : other = name
    · subst he
      rw [lookup?_cons_self, ht.unique hd ⟨0, .declared h⟩]
    · rw [lookup?_cons_of_ne (u := m.types) he]
      exact hm.declared other u h

theorem After.refl (hm : m.AreSound d) : After d [] m m := ⟨hm, fun _ h => h, nofun⟩

theorem After.trans (h : After d ns m m₁) (h' : After d ns' m₁ m') :
    After d (ns ++ ns') m m' := by
  refine ⟨h'.sound, fun name hn => h'.kept name (h.kept name hn), ?_⟩
  intro name hn
  rcases List.mem_append.mp hn with hn | hn
  · exact h'.kept name (h.met name hn)
  · exact h'.met name hn

theorem After.insert (hd : d.HasProperNames) (h : After d ns m m') (ht : d.Means name t) :
    After d [name] m ⟨(name, t) :: m'.names, ts⟩ := by
  refine ⟨h.sound.insert hd ht, ?_, ?_⟩
  · intro other ho
    by_cases he : other = name
    · rw [he, lookup?_cons_self]
      rfl
    · rw [lookup?_cons_of_ne (u := m'.types) he]
      exact h.kept other ho
  · intro other ho
    cases List.mem_singleton.mp ho
    rw [lookup?_cons_self]
    rfl

end Meanings

namespace Document
set_option autoImplicit true

variable {d : Document} {m m' : Meanings}

/-- Resolution finds only meanings, and remembers only meanings. -/
theorem means_of_resolveWithin (hd : d.HasProperNames) (hm : m.AreSound d)
    (h : d.resolveWithin fuel visited name m = .ok (t, m')) :
    d.Means name t ∧ Meanings.After d [name] m m' := by
  induction fuel generalizing visited name t m m' with
  | zero => cases h
  | succ fuel ih =>
    rw [resolveWithin, Resolving.get_bind_apply] at h
    cases hknown : m.lookup? name with
    | some u =>
      simp only [hknown] at h
      cases h
      refine ⟨hm.means name t hknown, hm, fun _ hn => hn, ?_⟩
      intro n hn
      cases List.mem_singleton.mp hn
      rw [hknown]
      rfl
    | none =>
      cases hsuffix : Suffix.split? name with
      | some p =>
        obtain ⟨suffix, stem⟩ := p
        simp only [hknown, hsuffix] at h
        obtain ⟨u, m₁, hu, h⟩ := Resolving.bind_eq_ok.mp h
        obtain ⟨⟨n, hn⟩, hafter⟩ := ih hm hu
        cases hwrap : suffix.wrap? u with
        | none =>
          simp only [hwrap] at h
          cases h
        | some t' =>
          simp only [hwrap] at h
          cases h
          have ht : d.Means name t := by
            rw [Suffix.eq_of_split? hsuffix]
            exact ⟨n + 1, .suffix hn (Suffix.wrap?_eq_some.mp hwrap)⟩
          exact ⟨ht, hafter.insert hd ht⟩
      | none =>
        cases hb : Builtin.ofName? name with
        | some b =>
          simp only [hknown, hsuffix, hb] at h
          cases h
          have ht : d.Means name (.builtin b) := by
            rw [← Builtin.typeName_of_ofName? hb]
            exact ⟨0, .builtin⟩
          exact ⟨ht, (Meanings.After.refl hm).insert hd ht⟩
        | none =>
          cases htarget : d.aliasTarget? name with
          | none =>
            simp only [hknown, hsuffix, hb, htarget] at h
            cases h
          | some target =>
            simp only [hknown, hsuffix, hb, htarget] at h
            split at h
            · cases h
            · obtain ⟨u, m₁, hu, h⟩ := Resolving.bind_eq_ok.mp h
              obtain ⟨⟨n, hn⟩, hafter⟩ := ih hm hu
              split at h
              · cases h
              · rename_i hext
                cases h
                obtain ⟨a, ha, rfl, rfl⟩ := aliasTarget?_eq_some htarget
                have ht : d.Means a.name t := ⟨n + 1, .via ha hn (Bool.eq_false_iff.mpr hext)⟩
                exact ⟨ht, hafter.insert hd ht⟩

/-- Resolution finds a meaning if there is enough fuel and each visited name is farther from its
meaning than the name itself. -/
theorem Derives.resolveWithin (hd : d.HasProperNames) (hm : m.AreSound d) (h : d.Derives n name t)
    (hfuel : n < fuel) (hvisited : ∀ v ∈ visited, ∀ k u, d.Derives k v u → n < k) :
    ∃ m', d.resolveWithin fuel visited name m = .ok (t, m') := by
  induction n using Nat.strongRecOn generalizing name t fuel visited with
  | ind n ih =>
    obtain ⟨fuel, rfl⟩ := Nat.exists_eq_add_one.mpr (Nat.zero_lt_of_lt hfuel)
    rw [Document.resolveWithin, Resolving.get_bind_apply]
    cases hknown : m.lookup? name with
    | some u =>
      cases Means.unique hd ⟨n, h⟩ (hm.means name u hknown)
      exact ⟨m, rfl⟩
    | none =>
      cases h.rule hd with
      | declared hdecl =>
        cases hknown.symm.trans (hm.declared name t hdecl)
      | @suffix s stem k u hdecl hsuffix hn hinner hw =>
        subst hn
        obtain ⟨m₁, hr⟩ := ih k (Nat.lt_succ_self k) hinner (Nat.lt_of_succ_lt_succ hfuel)
          fun v hv j w hj => Nat.lt_of_succ_lt (hvisited v hv j w hj)
        simp only [hsuffix]
        rw [Resolving.bind_apply hr]
        simp only [Suffix.wrap?_eq_some.mpr hw]
        exact ⟨_, rfl⟩
      | builtin hdecl hsuffix hb hn ht =>
        subst ht
        simp only [hsuffix, hb]
        exact ⟨_, rfl⟩
      | @via target k hdecl hsuffix hb htarget hn htgt hext =>
        subst hn
        -- Each visited name is farther from its meaning than this one.
        have hfresh : visited.contains name = false :=
          Result.contains_eq_false fun hmem => Nat.lt_irrefl _ (hvisited name hmem _ _ h)
        have hbelow : ∀ v ∈ name :: visited, ∀ j w, d.Derives j v w → k < j := by
          intro v hv j w hj
          cases hv with
          | head =>
            have := (h.unique hd hj).1
            omega
          | tail _ hv => exact Nat.lt_of_succ_lt (hvisited v hv j w hj)
        obtain ⟨m₁, hr⟩ := ih k (Nat.lt_succ_self k) htgt (Nat.lt_of_succ_lt_succ hfuel) hbelow
        simp only [hsuffix, hb, htarget, hfresh, Bool.false_eq_true, if_false]
        rw [Resolving.bind_apply hr]
        simp only [hext, Bool.false_eq_true, if_false]
        exact ⟨_, rfl⟩

end Document
end ChainKit.Abi
