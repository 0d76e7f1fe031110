import ChainKit.Proofs.Wire.Composed

namespace ChainKit.Wire
set_option autoImplicit true

namespace Reader

/-- The reader with more bytes at the end of the data. -/
def before (r : Reader) (more : Bytes) : Reader := ⟨r.position, r.rest ++ more⟩

/-- Whether a reader comes to stand at a later place in the same data. -/
def LeadsTo (r r' : Reader) : Prop :=
  ∃ used, r.rest = used ++ r'.rest ∧ r'.position = r.position + used.length

theorem LeadsTo.refl (r : Reader) : r.LeadsTo r := ⟨[], rfl, rfl⟩

theorem LeadsTo.trans {r r' r'' : Reader} (h : r.LeadsTo r') (h' : r'.LeadsTo r'') :
    r.LeadsTo r'' := by
  obtain ⟨used, hrest, hposition⟩ := h
  obtain ⟨used', hrest', hposition'⟩ := h'
  refine ⟨used ++ used', ?_, ?_⟩
  · rw [hrest, hrest', List.append_assoc]
  · rw [hposition', hposition, List.length_append, Nat.add_assoc]

theorem leadsTo_advance {r : Reader} {n : Nat} (h : n ≤ r.rest.length) :
    r.LeadsTo (r.advance n) := by
  refine ⟨r.rest.take n, (List.take_append_drop n r.rest).symm, ?_⟩
  rw [List.length_take, Nat.min_eq_left h]
  rfl

theorem advance_before {r : Reader} {n : Nat} (h : n ≤ r.rest.length) (more : Bytes) :
    (r.before more).advance n = (r.advance n).before more := by
  simp only [before, advance, List.drop_append_of_le_length h]

end Reader

/-- Whether a read that succeeds moves forward, and does the same when more bytes follow. -/
def Delimits (x : EStateM ε Reader α) : Prop :=
  ∀ r a r', x r = .ok a r' → r.LeadsTo r' ∧ ∀ more, x (r.before more) = .ok a (r'.before more)

namespace Delimits

theorem pure (a : α) : Delimits (ε := ε) (Pure.pure a) := by
  intro r b r' h
  cases h
  exact ⟨.refl r, fun _ => rfl⟩

theorem throw (e : ε) : Delimits (throw e : EStateM ε Reader α) := by
  intro r a r' h
  cases h

theorem bind {x : EStateM ε Reader α} {f : α → EStateM ε Reader β} (hx : Delimits x)
    (hf : ∀ a, Delimits (f a)) : Delimits (x >>= f) := by
  intro r b r'' h
  obtain ⟨a, r', hxr, hfr⟩ := bind_eq_ok h
  obtain ⟨hleads, hmore⟩ := hx r a r' hxr
  obtain ⟨hleads', hmore'⟩ := hf a r' b r'' hfr
  refine ⟨hleads.trans hleads', ?_⟩
  intro more
  rw [bind_ok (hmore more)]
  exact hmore' more

theorem map {x : EStateM ε Reader α} (f : α → β) (h : Delimits x) :
    Delimits (x >>= fun a => Pure.pure (f a)) := h.bind fun a => pure (f a)

theorem position {f : Nat → EStateM ε Reader α} (h : ∀ n, Delimits (f n)) :
    Delimits ((do return (← get).position) >>= f) := fun r => h r.position r

theorem adapt {x : EStateM ε Reader α} (g : ε → ε') (h : Delimits x) :
    Delimits (EStateM.adaptExcept g x) := by
  intro r a r' hr
  simp only [EStateM.adaptExcept] at hr ⊢
  split at hr
  · cases hr
  · cases hr
    rename_i hx
    obtain ⟨hleads, hmore⟩ := h r a r' hx
    refine ⟨hleads, ?_⟩
    intro more
    simp only [hmore more]

theorem ite {c : Prop} [Decidable c] {x y : EStateM ε Reader α} (hx : c → Delimits x)
    (hy : ¬c → Delimits y) : Delimits (if c then x else y) := by
  split
  · exact hx ‹_›
  · exact hy ‹_›

end Delimits

namespace Read

theorem delimits_of_take {x : Read α}
    (h : ∀ r a r', x r = .ok a r' → n ≤ r.rest.length ∧ r' = r.advance n ∧
      ∀ s : Reader, s.rest.take n = r.rest.take n → x s = .ok a (s.advance n)) : Delimits x := by
  intro r a r' hr
  obtain ⟨hn, rfl, hsame⟩ := h r a r' hr
  refine ⟨Reader.leadsTo_advance hn, ?_⟩
  intro more
  rw [← Reader.advance_before hn more]
  exact hsame _ (List.take_append_of_le_length hn)

theorem le_length_of_take {bs : Bytes} (h : (bs.take n).length = n) : n ≤ bs.length := by
  rw [List.length_take] at h
  omega

theorem delimits_bytes (n : Nat) : Delimits (bytes n) := by
  apply delimits_of_take (n := n)
  intro r bs r' h
  simp only [bytes] at h
  split at h
  · rename_i hlen
    cases h
    refine ⟨le_length_of_take hlen, rfl, ?_⟩
    intro s hs
    simp only [bytes, hs, hlen, if_true]
  · cases h

theorem delimits_blob (n : Nat) : Delimits (blob n) := by
  apply delimits_of_take (n := n)
  intro r b r' h
  simp only [blob] at h
  split at h
  · rename_i hb
    cases h
    have hlen : (r.rest.take n).length = n := by
      rw [← Blob.ofBytes?_eq_some.mp hb]
      exact b.length_eq
    refine ⟨le_length_of_take hlen, rfl, ?_⟩
    intro s hs
    simp only [blob, hs, hb]
  · cases h

end Read

/-- Where a read fails does not matter to what it does when it succeeds. -/
theorem IsComposed.delimits {x : Read α} (h : IsComposed (fun _ => True) x) : Delimits x := by
  induction h with
  | pure a => exact .pure a
  | throw _ => exact .throw _
  | bytes n => exact Read.delimits_bytes n
  | blob n => exact Read.delimits_blob n
  | bind _ _ ihx ihf => exact ihx.bind ihf
  | position _ ih =>
    apply Delimits.position
    intro p
    exact ih p trivial

end ChainKit.Wire
