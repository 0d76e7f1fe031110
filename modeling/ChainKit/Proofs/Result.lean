namespace ChainKit.Result
set_option autoImplicit true

instance decidableEqExcept [DecidableEq ε] [DecidableEq α] : DecidableEq (Except ε α)
  | .error e, .error e' => decidable_of_iff (e = e') (by rw [Except.error.injEq])
  | .ok a, .ok a' => decidable_of_iff (a = a') (by rw [Except.ok.injEq])
  | .error _, .ok _ => .isFalse nofun
  | .ok _, .error _ => .isFalse nofun

theorem bind_eq_ok {x : Except ε α} {f : α → Except ε β} :
    (x >>= f) = .ok b ↔ ∃ a, x = .ok a ∧ f a = .ok b := by
  cases x with
  | error e =>
    constructor
    · intro h
      cases h
    · rintro ⟨a, h, _⟩
      cases h
  | ok a =>
    constructor
    · exact fun h => ⟨a, rfl, h⟩
    · rintro ⟨a', h, hf⟩
      cases h
      exact hf

theorem map_eq_ok {f : α → β} {x : Except ε α} : x.map f = .ok b ↔ ∃ a, x = .ok a ∧ f a = b := by
  cases x with
  | error e => exact ⟨nofun, fun ⟨_, h, _⟩ => nomatch h⟩
  | ok a => simp [Except.map]

theorem mapError_eq_ok {f : ε → ε'} {x : Except ε α} : x.mapError f = .ok a ↔ x = .ok a := by
  cases x with
  | error e => exact ⟨nofun, nofun⟩
  | ok b =>
    constructor
    · rintro ⟨⟩
      rfl
    · rintro ⟨⟩
      rfl

/-- Whether two lists are related entry by entry. -/
inductive Each (R : α → β → Prop) : List α → List β → Prop where
  | nil : Each R [] []
  | cons : R x y → Each R xs ys → Each R (x :: xs) (y :: ys)

theorem Each.mem {R : α → β → Prop} (h : Each R xs ys) (hy : y ∈ ys) : ∃ x ∈ xs, R x y := by
  induction h with
  | nil => cases hy
  | cons hx _ ih =>
    cases hy with
    | head => exact ⟨_, List.mem_cons_self, hx⟩
    | tail _ hy =>
      obtain ⟨x, hmem, hxy⟩ := ih hy
      exact ⟨x, List.mem_cons_of_mem _ hmem, hxy⟩

theorem Each.mem_left {R : α → β → Prop} (h : Each R xs ys) (hx : x ∈ xs) : ∃ y ∈ ys, R x y := by
  induction h with
  | nil => cases hx
  | cons hxy _ ih =>
    cases hx with
    | head => exact ⟨_, List.mem_cons_self, hxy⟩
    | tail _ hx =>
      obtain ⟨y, hmem, hxy⟩ := ih hx
      exact ⟨y, List.mem_cons_of_mem _ hmem, hxy⟩

theorem exists_each {R : α → β → Prop} : (∃ ys, Each R xs ys) ↔ ∀ x ∈ xs, ∃ y, R x y := by
  induction xs with
  | nil => exact ⟨fun _ => nofun, fun _ => ⟨[], .nil⟩⟩
  | cons x xs ih =>
    rw [List.forall_mem_cons, ← ih]
    constructor
    · rintro ⟨_, h⟩
      cases h with
      | cons hx hxs => exact ⟨⟨_, hx⟩, _, hxs⟩
    · rintro ⟨⟨y, hy⟩, ys, hys⟩
      exact ⟨y :: ys, .cons hy hys⟩

theorem Each.mono {R S : α → β → Prop} (hrs : ∀ x y, R x y → S x y) (h : Each R xs ys) :
    Each S xs ys := by
  induction h with
  | nil => exact .nil
  | cons hx _ ih => exact .cons (hrs _ _ hx) ih

theorem Each.and {R S : α → β → Prop} (h : Each R xs ys) (h' : Each S xs ys) :
    Each (fun x y => R x y ∧ S x y) xs ys := by
  induction h with
  | nil => exact .nil
  | cons hx _ ih =>
    cases h' with
    | cons hx' h' => exact .cons ⟨hx, hx'⟩ (ih h')

theorem Each.join {R : α → β → Prop} {S : α → γ → Prop} (h : Each R xs ys) (h' : Each S xs zs) :
    Each (fun y z => ∃ x, R x y ∧ S x z) ys zs := by
  induction h generalizing zs with
  | nil =>
    cases h'
    exact .nil
  | cons hx _ ih =>
    cases h' with
    | cons hx' h' => exact .cons ⟨_, hx, hx'⟩ (ih h')

theorem Each.map {R : α → β → Prop} {f : γ → α} {g : γ → β} (h : ∀ x, R (f x) (g x))
    (xs : List γ) : Each R (xs.map f) (xs.map g) := by
  induction xs with
  | nil => exact .nil
  | cons x xs ih => exact .cons (h x) ih

theorem Each.flip {R : α → β → Prop} {S : β → α → Prop} (hrs : ∀ x y, R x y → S y x)
    (h : Each R xs ys) : Each S ys xs := by
  induction h with
  | nil => exact .nil
  | cons hx _ ih => exact .cons (hrs _ _ hx) ih

theorem Each.length_eq {R : α → β → Prop} (h : Each R xs ys) : xs.length = ys.length := by
  induction h with
  | nil => rfl
  | cons _ _ ih => rw [List.length_cons, List.length_cons, ih]

theorem Each.mono_mem {R S : α → β → Prop} (hrs : ∀ x ∈ xs, ∀ y, R x y → S x y)
    (h : Each R xs ys) : Each S xs ys := by
  induction h with
  | nil => exact .nil
  | cons hx _ ih =>
    obtain ⟨hhead, htail⟩ := List.forall_mem_cons.mp hrs
    exact .cons (hhead _ hx) (ih htail)

theorem Each.images {R : α → β → Prop} {S : γ → δ → Prop} {f : α → γ} {g : β → δ}
    (hrs : ∀ x y, R x y → S (f x) (g y)) (h : Each R xs ys) : Each S (xs.map f) (ys.map g) := by
  induction h with
  | nil => exact .nil
  | cons hx _ ih => exact .cons (hrs _ _ hx) ih

theorem Each.append {R : α → β → Prop} (h : Each R xs ys) (h' : Each R xs' ys') :
    Each R (xs ++ xs') (ys ++ ys') := by
  induction h with
  | nil => exact h'
  | cons hx _ ih => exact .cons hx ih

theorem Each.split {R : α → β → Prop} (h : Each R (xs ++ xs') ys) :
    ∃ front back, ys = front ++ back ∧ Each R xs front ∧ Each R xs' back := by
  induction xs generalizing ys with
  | nil => exact ⟨[], ys, rfl, .nil, h⟩
  | cons x xs ih =>
    cases h with
    | @cons _ y _ _ hx h =>
      obtain ⟨front, back, rfl, hfront, hback⟩ := ih h
      exact ⟨y :: front, back, rfl, .cons hx hfront, hback⟩

theorem Each.unique {R : α → β → Prop} (hr : ∀ x y z, R x y → R x z → y = z) (h : Each R xs ys)
    (h' : Each R xs zs) : ys = zs := by
  induction h generalizing zs with
  | nil =>
    cases h'
    rfl
  | cons hx _ ih =>
    cases h' with
    | cons hx' hxs' => rw [hr _ _ _ hx hx', ih hxs']

theorem Each.find? {R : α → β → Prop} {p : α → Bool} {q : β → Bool} (h : Each R xs ys)
    (hpq : ∀ x y, R x y → p x = q y) (hx : xs.find? p = some x) :
    ∃ y, ys.find? q = some y ∧ R x y := by
  induction h with
  | nil => cases hx
  | @cons x' y' xs ys hr _ ih =>
    rw [List.find?_cons] at hx ⊢
    rw [← hpq x' y' hr]
    cases hp : p x' with
    | true =>
      rw [hp] at hx
      cases hx
      exact ⟨y', rfl, hr⟩
    | false =>
      rw [hp] at hx
      exact ih hx

theorem each_of_mapM {f : α → Except ε β} {xs : List α} (h : xs.mapM f = .ok ys) :
    Each (fun x y => f x = .ok y) xs ys := by
  induction xs generalizing ys with
  | nil =>
    cases h
    exact .nil
  | cons x xs ih =>
    rw [List.mapM_cons] at h
    obtain ⟨y, hx, h⟩ := bind_eq_ok.mp h
    obtain ⟨ys', hxs, h⟩ := bind_eq_ok.mp h
    cases h
    exact .cons hx (ih hxs)

theorem map_eq_of_each {f : α → β} {xs : List α} (h : Each (fun x y => f x = y) xs ys) :
    xs.map f = ys := by
  induction h with
  | nil => rfl
  | cons hx _ ih => rw [List.map_cons, hx, ih]

theorem map_eq_map_of_each {f : α → γ} {g : β → γ} (h : Each (fun x y => g y = f x) xs ys) :
    ys.map g = xs.map f := by
  induction h with
  | nil => rfl
  | cons hx _ ih => rw [List.map_cons, List.map_cons, hx, ih]

theorem mapM_of_each {f : α → Except ε β} {xs : List α}
    (h : Each (fun x y => f x = .ok y) xs ys) : xs.mapM f = .ok ys := by
  induction h with
  | nil => rfl
  | cons hx _ ih =>
    rw [List.mapM_cons, hx, ih]
    rfl

theorem exists_mapM {f : α → Option β} {xs : List α} (h : ∀ x ∈ xs, ∃ y, f x = some y) :
    ∃ ys, xs.mapM f = some ys := by
  induction xs with
  | nil => exact ⟨[], rfl⟩
  | cons x xs ih =>
    obtain ⟨y, hy⟩ := h x List.mem_cons_self
    obtain ⟨ys, hys⟩ := ih fun z hz => h z (List.mem_cons_of_mem _ hz)
    refine ⟨y :: ys, ?_⟩
    rw [List.mapM_cons, hy, hys]
    rfl

theorem length_of_mapM {f : α → Option β} {xs : List α} (h : xs.mapM f = some ys) :
    ys.length = xs.length := by
  induction xs generalizing ys with
  | nil =>
    cases h
    rfl
  | cons x xs ih =>
    rw [List.mapM_cons] at h
    obtain ⟨y, -, h⟩ := Option.bind_eq_some_iff.mp h
    obtain ⟨ys', hys, h⟩ := Option.bind_eq_some_iff.mp h
    cases h
    rw [List.length_cons, List.length_cons, ih hys]

theorem mem_of_mapM_some {f : α → Option β} {xs : List α} (h : xs.mapM f = some ys) (hy : y ∈ ys) :
    ∃ x ∈ xs, f x = some y := by
  induction xs generalizing ys with
  | nil =>
    cases h
    cases hy
  | cons x xs ih =>
    rw [List.mapM_cons] at h
    obtain ⟨y', hx, h⟩ := Option.bind_eq_some_iff.mp h
    obtain ⟨ys', hxs, h⟩ := Option.bind_eq_some_iff.mp h
    cases h
    cases hy with
    | head => exact ⟨x, List.mem_cons_self, hx⟩
    | tail _ hy =>
      obtain ⟨x', hx', hf⟩ := ih hxs hy
      exact ⟨x', List.mem_cons_of_mem _ hx', hf⟩

theorem contains_eq_false {names : List String} (h : name ∉ names) :
    names.contains name = false := by
  rw [← Bool.not_eq_true, List.contains_iff_mem]
  exact h

theorem getD_of_idxOf? [BEq α] [LawfulBEq α] {xs : List α} (h : xs.idxOf? x = some i)
    (default : α) : i < xs.length ∧ xs.getD i default = x := by
  obtain ⟨hi, hx, -⟩ := List.idxOf?_eq_some_iff.mp h
  refine ⟨hi, ?_⟩
  rw [List.getD_eq_getElem?_getD, List.getElem?_eq_getElem hi, Option.getD_some]
  exact hx

theorem getElem?_of_findIdx? {p : α → Bool} {xs : List α} (h : xs.findIdx? p = some i) :
    ∃ x, xs[i]? = some x ∧ p x := by
  obtain ⟨hi, hp, -⟩ := List.findIdx?_eq_some_iff_getElem.mp h
  exact ⟨xs[i], List.getElem?_eq_getElem hi, hp⟩

theorem find?_of_findIdx? {p : α → Bool} {xs : List α} (h : xs.findIdx? p = some i) :
    xs.find? p = xs[i]? := by
  obtain ⟨hi, hp, hbefore⟩ := List.findIdx?_eq_some_iff_getElem.mp h
  rw [List.getElem?_eq_getElem hi, List.find?_eq_some_iff_getElem]
  refine ⟨hp, i, hi, rfl, ?_⟩
  intro j hj
  simpa using hbefore j hj

theorem eq_of_findIdx? {name : α → String} {xs : List α}
    (h : xs.findIdx? (fun x => name x == key) = some i) (hx : xs[i]? = some x) : name x = key := by
  obtain ⟨y, hy, hk⟩ := getElem?_of_findIdx? h
  cases hx.symm.trans hy
  exact eq_of_beq hk

theorem findIdx?_of_nodup {name : α → String} {xs : List α} (h : (xs.map name).Nodup)
    (hx : xs[i]? = some x) : xs.findIdx? (fun y => name y == name x) = some i := by
  induction xs generalizing i with
  | nil => cases hx
  | cons y ys ih =>
    rw [List.map_cons, List.nodup_cons] at h
    rw [List.findIdx?_cons]
    cases i with
    | zero =>
      cases hx
      rw [if_pos BEq.rfl]
    | succ i =>
      have hy : ¬(name y == name x) = true := by
        intro he
        exact h.1 (eq_of_beq he ▸ List.mem_map_of_mem (List.mem_of_getElem? hx))
      rw [if_neg hy, ih h.2 hx]
      rfl

theorem find?_of_nodup {name : α → String} {xs : List α} (h : (xs.map name).Nodup) (hx : x ∈ xs) :
    xs.find? (fun y => name y == name x) = some x := by
  induction xs with
  | nil => cases hx
  | cons y ys ih =>
    rw [List.map_cons, List.nodup_cons] at h
    cases hx with
    | head => exact List.find?_cons_of_pos BEq.rfl
    | tail _ hx =>
      have hy : ¬(name y == name x) = true := by
        intro he
        exact h.1 (eq_of_beq he ▸ List.mem_map_of_mem hx)
      simp only [List.find?_cons, Bool.eq_false_iff.mpr hy]
      exact ih h.2 hx

theorem mem_of_mem_find? {parts : α → List β} {xs : List α} {default : α}
    (hdefault : parts default = []) (h : b ∈ parts ((xs.find? p).getD default)) :
    ∃ x ∈ xs, b ∈ parts x := by
  cases hx : xs.find? p with
  | none =>
    rw [hx, Option.getD_none, hdefault] at h
    cases h
  | some x =>
    rw [hx] at h
    exact ⟨x, List.mem_of_find?_eq_some hx, h⟩

theorem toOption_bind (x : Except ε α) (f : α → Except ε β) :
    (x >>= f).toOption = x.toOption.bind fun a => (f a).toOption := by
  cases x <;> rfl

theorem toOption_mapError (f : ε → ε') (x : Except ε α) : (x.mapError f).toOption = x.toOption := by
  cases x <;> rfl

theorem toOption_map (f : α → β) (x : Except ε α) : (x.map f).toOption = x.toOption.map f := by
  cases x <;> rfl

theorem toOption_mapM (f : α → Except ε β) (xs : List α) :
    (xs.mapM f).toOption = xs.mapM fun x => (f x).toOption := by
  induction xs with
  | nil => rfl
  | cons x xs ih =>
    rw [List.mapM_cons, List.mapM_cons, toOption_bind]
    simp only [toOption_bind, ih]
    rfl

theorem toOption_eq_some {x : Except ε α} : x.toOption = some a ↔ x = .ok a := by
  cases x <;> simp [Except.toOption]

theorem exists_mapM_ok {f : α → Except ε β} {xs : List α} (h : ∀ x ∈ xs, ∃ y, f x = .ok y) :
    ∃ ys, xs.mapM f = .ok ys := by
  have hoption : ∃ ys, (xs.mapM fun x => (f x).toOption) = some ys := by
    apply exists_mapM
    intro x hx
    obtain ⟨y, hy⟩ := h x hx
    exact ⟨y, toOption_eq_some.mpr hy⟩
  obtain ⟨ys, hys⟩ := hoption
  exact ⟨ys, toOption_eq_some.mp ((toOption_mapM f xs).trans hys)⟩

end ChainKit.Result
