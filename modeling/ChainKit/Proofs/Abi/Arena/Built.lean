import ChainKit.Proofs.Abi.Arena.Lockstep
import ChainKit.Proofs.Abi.Resolution.Places

namespace ChainKit.Abi.Arena
set_option autoImplicit true

/-- Whether a computation stores types as another finds them, and puts nothing in the place of what
is stored. `Q` holds of its result. -/
def Follows (x : Storing ε α) (y : Resolving ε β) (Q : α → Arena → Prop) : Prop :=
  ∀ a m, a.Holds m → Agrees (fun p q => Advances [] a m p.2 q.2 ∧ Q p.1 p.2) (x a) (y m)

namespace Follows

theorem pure (u : α) (v : β) :
    Follows (Pure.pure u : Storing ε α) (Pure.pure v) fun _ _ => True := by
  intro a m ha
  exact .ok ⟨.refl ha, trivial⟩

theorem fail (e : ε) (Q : α → Arena → Prop) :
    Follows (Arena.fail e) (throw e : Resolving ε β) Q := by
  intro a m ha
  exact .error

theorem bind {x : Storing ε α} {y : Resolving ε β} {f : α → Storing ε γ} {g : β → Resolving ε δ}
    (h : Follows x y Q) (hfg : ∀ u v, Follows (f u) (g v) S) :
    Follows (x >>= f) (y >>= g) S := by
  intro a m ha
  apply (h a m ha).bind
  rintro u a₁ v m₁ ⟨hadv, -⟩
  apply (hfg u v a₁ m₁ hadv.holds).mono
  rintro p q ⟨hadv', hS⟩
  exact ⟨hadv.trans hadv', hS⟩

theorem map {x : Storing ε α} {y : Resolving ε β} (f : α → γ) (g : β → δ) (h : Follows x y Q)
    (hqs : ∀ u a, Q u a → S (f u) a) :
    Follows (x >>= fun u => Pure.pure (f u)) (y >>= fun v => Pure.pure (g v)) S := by
  intro a m ha
  apply (h a m ha).bind
  rintro u a₁ v m₁ ⟨hadv, hQ⟩
  exact .ok ⟨hadv, hqs u a₁ hQ⟩

theorem map_right {x : Storing ε α} {y : Resolving ε β} (g : β → γ) (h : Follows x y Q) :
    Follows x (y >>= fun v => Pure.pure (g v)) Q := by
  intro a m ha
  exact (h a m ha).map_right fun _ _ hQ => hQ

theorem mapM {f : α → Storing ε β} {g : α → Resolving ε γ} {Q : α → β → Arena → Prop}
    (h : ∀ x, Follows (f x) (g x) (Q x))
    (hkept : ∀ x y a a', Grows [] a a' → Q x y a → Q x y a') (xs : List α) :
    Follows (xs.mapM f) (xs.mapM g) fun ys a => Result.Each (fun x y => Q x y a) xs ys := by
  induction xs with
  | nil =>
    intro a m ha
    exact .ok ⟨.refl ha, .nil⟩
  | cons x xs ih =>
    intro a m ha
    rw [List.mapM_cons, List.mapM_cons]
    apply (h x a m ha).bind
    rintro y a₁ z m₁ ⟨hadv, hy⟩
    apply (ih a₁ m₁ hadv.holds).bind
    rintro ys a₂ zs m₂ ⟨hadv', hys⟩
    exact .ok ⟨hadv.trans hadv', .cons (hkept x y a₁ a₂ hadv'.grows hy) hys⟩

theorem forM {f : α → Storing ε PUnit} {g : α → Resolving ε PUnit}
    (h : ∀ x, Follows (f x) (g x) fun _ _ => True) (xs : List α) :
    Follows (xs.forM f) (xs.forM g) fun _ _ => True := by
  induction xs with
  | nil => exact pure _ _
  | cons x xs ih => exact (h x).bind fun _ _ => ih

end Follows

variable {d : Document} {a a' : Arena} {m m' : Meanings}

theorem follows_placeReference (referrer : Referrer) (name : String) :
    Follows (d.placeReference referrer name) (d.resolveReference referrer name)
      fun i a => a.lookup? name = some i := by
  intro a m ha
  apply ((agrees_placeWithin ha).mapError (Document.blame referrer)).mono
  rintro p q ⟨hadv, hat⟩
  exact ⟨hadv, hat.place⟩

theorem follows_placeEntries (referrer : Name → Referrer) (duplicate : Name → SchemaError)
    (seen : List Name) (entries : List (Name × String)) :
    Follows (d.placeEntries referrer duplicate seen entries)
      (d.checkEntries referrer duplicate seen entries) fun _ _ => True := by
  induction entries generalizing seen with
  | nil => exact .pure () ()
  | cons e entries ih =>
    rw [Document.placeEntries, Document.checkEntries]
    split
    · exact .fail _ _
    · exact (follows_placeReference _ _).bind fun _ _ => ih _

theorem follows_checked (referrer : Referrer) (name : String) :
    Follows (d.placeReference referrer name >>= fun _ => Pure.pure PUnit.unit)
      (d.resolveReference referrer name >>= fun _ => Pure.pure PUnit.unit) fun _ _ => True :=
  (follows_placeReference referrer name).bind fun _ _ => .pure _ _

/-- What is placed behind the structs and variants. -/
theorem follows_rest (structs : List StructType) (variants : List VariantType) :
    Follows
      (do
        d.aliases.forM d.placeAlias
        d.placeEntries .action .duplicateAction [] (d.actions.map fun a => (a.name, a.type))
        d.placeEntries .table .duplicateTable [] (d.tables.map fun t => (t.name, t.type))
        d.actionResults.forM d.placeResult)
      (do
        d.aliases.forM d.checkAlias
        d.checkEntries .action .duplicateAction [] (d.actions.map fun a => (a.name, a.type))
        d.checkEntries .table .duplicateTable [] (d.tables.map fun t => (t.name, t.type))
        d.actionResults.forM d.checkResult
        return (structs, variants))
      fun _ _ => True := by
  apply (Follows.forM (fun a => follows_checked _ _) d.aliases).bind
  intro _ _
  apply (follows_placeEntries _ _ _ _).bind
  intro _ _
  apply (follows_placeEntries _ _ _ _).bind
  intro _ _
  exact (Follows.forM (fun r => follows_checked _ _) d.actionResults).map_right _

structure IsPart (a : Arena) (name type : String) (p : Part) : Prop where
  named : p.name = name
  placed : a.lookup? type = some p.type

theorem IsPart.grows (h : IsPart a name type p) (hgrows : Grows ids a a') :
    IsPart a' name type p :=
  ⟨h.named, hgrows.names type p.type h.placed⟩

theorem Holds.place_lt (h : a.Holds m) (hi : a.lookup? name = some i) : i < m.types.length := by
  obtain ⟨t, -, hat⟩ := h.isAt hi
  exact (List.getElem?_eq_some_iff.mp hat.type).1

theorem agrees_overwrite (ha : a.Holds m) (hi : m.types[i]? = some t) (he : e.Is m.types t) :
    ∃ a', (overwrite i e : Storing ε PUnit) a = .ok ((), a') ∧ Advances [i] a m a' m ∧
      a'.get? i = some e := by
  obtain ⟨old, hold, -⟩ := ha.stores.exists_entry hi
  have hlt : i < a.types.size := (Array.getElem?_eq_some_iff.mp hold).1
  refine ⟨{ a with types := a.types.set i e }, ?_, ?_, Array.getElem?_set_self hlt⟩
  · rw [overwrite, get_bind_apply, dif_pos hlt]
    rfl
  · have hother : ∀ j, j ≠ i → (a.types.set i e)[j]? = a.types[j]? := by
      intro j hj
      exact Array.getElem?_set_ne hlt (Ne.symm hj)
    refine ⟨⟨ha.stores.overwrite he hi hother (Array.getElem?_set_self hlt), ha.names⟩,
      ⟨fun _ _ h => h, ?_⟩, List.prefix_rfl⟩
    intro j hj e' he'
    exact (hother j fun h => hj (List.mem_singleton.mpr h)).trans he'

/-- Whether the entry at a place has a part for each of some things. -/
def HasParts (entry : List Part → Entry) (name type : α → String) (xs : List α) (i : TypeId)
    (a : Arena) : Prop :=
  ∃ parts, a.get? i = some (entry parts) ∧
    Result.Each (fun x p => IsPart a (name x) (type x) p) xs parts

theorem HasParts.grows (h : HasParts entry name type xs i a) (hgrows : Grows ids a a')
    (hi : i ∉ ids) : HasParts entry name type xs i a' := by
  obtain ⟨parts, he, hparts⟩ := h
  exact ⟨parts, hgrows.entries i hi _ he, hparts.mono fun x p hp => hp.grows hgrows⟩

/-- The parts of an entry are placed, and then the entry is stored with them. -/
theorem agrees_fill {f : α → Storing ε Part} {g : α → Resolving ε β} {name type : α → String}
    {entry : List Part → Entry} (mk : List β → γ) (ha : a.Holds m) (hi : m.types[i]? = some t)
    (hparts : ∀ x, Follows (f x) (g x) fun p a => IsPart a (name x) (type x) p)
    (hentry : ∀ ts parts, (∀ p ∈ parts, p.type < List.length ts) → (entry parts).Is ts t) :
    Agrees (fun p q => Advances [i] a m p.2 q.2 ∧ HasParts entry name type xs i p.2)
      ((xs.mapM f >>= fun parts => overwrite i (entry parts)) a)
      ((xs.mapM g >>= fun ys => pure (mk ys)) m) := by
  have hall := Follows.mapM hparts (fun x p a a' hgrows hp => hp.grows hgrows) xs
  apply (hall a m ha).bind
  rintro parts a₁ ys m₁ ⟨hadv, heach⟩
  have hlt : ∀ p ∈ parts, p.type < m₁.types.length := by
    intro p hp
    obtain ⟨x, -, hpart⟩ := heach.mem hp
    exact hadv.holds.place_lt hpart.placed
  obtain ⟨a', ha', hadv', he⟩ :=
    agrees_overwrite (ε := ε) hadv.holds (hadv.getElem? hi) (hentry _ parts hlt)
  rw [ha']
  exact .ok ⟨hadv.trans hadv', parts, he, heach.mono fun x p hp => hp.grows hadv'.grows⟩

def HasFields (d : Document) (s : StructDef) (i : TypeId) (a : Arena) : Prop :=
  ∃ fields, d.flatten s = .ok fields ∧
    HasParts (.struct s.name) FieldDef.name FieldDef.type fields i a

def HasMembers (v : VariantDef) (i : TypeId) (a : Arena) : Prop :=
  HasParts (.variant v.name) id id v.members i a

theorem follows_fieldPart (s : StructDef) (f : FieldDef) :
    Follows (d.fieldPart s f) (d.fieldType s f) fun p a => IsPart a f.name f.type p := by
  apply (follows_placeReference _ f.type).map
  intro i a hi
  exact ⟨rfl, hi⟩

theorem follows_memberPart (v : VariantDef) (member : String) :
    Follows (d.memberPart v member) (d.memberType v member)
      fun p a => IsPart a member member p := by
  apply (follows_placeReference _ member).map
  intro i a hi
  exact ⟨rfl, hi⟩

theorem agrees_fillStruct (s : StructDef) (ha : a.Holds m)
    (hi : m.types[i]? = some (.struct s.name)) :
    Agrees (fun p q => Advances [i] a m p.2 q.2 ∧ HasFields d s i p.2)
      (d.fillStruct s i a) (d.structType s m) := by
  rw [Document.fillStruct, Document.structType]
  cases hflat : d.flatten s with
  | error e => exact .error
  | ok fields =>
    apply (agrees_fill (StructType.mk s.name) ha hi (follows_fieldPart s)
      fun _ _ => .struct).mono
    rintro p q ⟨hadv, hparts⟩
    exact ⟨hadv, fields, hflat, hparts⟩

theorem agrees_fillVariant (v : VariantDef) (ha : a.Holds m)
    (hi : m.types[i]? = some (.variant v.name)) :
    Agrees (fun p q => Advances [i] a m p.2 q.2 ∧ HasMembers v i p.2)
      (d.fillVariant v i a) (d.variantType v m) :=
  agrees_fill (VariantType.mk v.name) ha hi (follows_memberPart v) fun _ _ => .variant

/-- What is kept places for gets filled, one after the other. -/
theorem agrees_fillAll {fill : α → TypeId → Storing ε PUnit} {find : α → Resolving ε β}
    {kind : α → Ty} {Full : α → TypeId → Arena → Prop}
    (hfill : ∀ x i a m, a.Holds m → m.types[i]? = some (kind x) →
      Agrees (fun p q => Advances [i] a m p.2 q.2 ∧ Full x i p.2) (fill x i a) (find x m))
    (hkept : ∀ x i ids a a', i ∉ ids → Grows ids a a' → Full x i a → Full x i a')
    (ha : a.Holds m) (hids : ids.Nodup)
    (hkinds : Result.Each (fun x i => m.types[i]? = some (kind x)) xs ids) :
    Agrees (fun p q => Advances ids a m p.2 q.2 ∧ Result.Each (fun x i => Full x i p.2) xs ids)
      (((xs.zip ids).forM fun x => fill x.1 x.2) a) (xs.mapM find m) := by
  induction xs generalizing ids a m with
  | nil =>
    cases hkinds
    exact .ok ⟨.refl ha, .nil⟩
  | cons x xs ih =>
    cases hkinds with
    | @cons _ i _ ids hi hkinds =>
      rw [List.nodup_cons] at hids
      rw [List.mapM_cons]
      apply (hfill x i a m ha hi).bind
      rintro u a₁ y m₁ ⟨hadv, hfull⟩
      -- The others have other places, so this one stays as it was filled.
      have hrest := ih hadv.holds hids.2 (hkinds.mono fun x j hj => hadv.getElem? hj)
      apply hrest.map_right
      rintro p q ⟨hadv', hfulls⟩
      exact ⟨hadv.trans hadv', .cons (hkept x i ids a₁ p.2 hids.1 hadv'.grows hfull) hfulls⟩

theorem holds_empty : Holds ⟨#[], []⟩ ⟨[], []⟩ := by
  constructor
  · intro i
    rw [List.getElem?_nil]
    exact .none
  · intro name
    exact .none

theorem Entry.is_struct_nil (ts : List Ty) (name : String) :
    (Entry.struct name []).Is ts (.struct name) :=
  .struct nofun

theorem Entry.is_variant_nil (ts : List Ty) (name : String) :
    (Entry.variant name []).Is ts (.variant name) :=
  .variant nofun

theorem exists_insertAll {name : α → String} {entry : α → Entry} {kind : α → Ty} {xs : List α}
    (ha : a.Holds m) (hkind : ∀ ts x, (entry x).Is ts (kind x)) (hnodup : (xs.map name).Nodup)
    (hnew : ∀ x ∈ xs, a.lookup? (name x) = none) :
    ∃ ids a' m',
      (xs.mapM fun x => (insert (name x) (entry x) : Storing ε TypeId)) a = .ok (ids, a') ∧
      Advances [] a m a' m' ∧ ids = List.range' m.types.length xs.length ∧
      Result.Each (fun x i => IsAt a' m' (name x) i (kind x)) xs ids ∧
      m'.names = (xs.map fun x => (name x, kind x)).reverse ++ m.names ∧
      m'.types = m.types ++ xs.map kind := by
  induction xs generalizing a m with
  | nil => exact ⟨[], a, m, rfl, .refl ha, rfl, .nil, rfl, (List.append_nil _).symm⟩
  | cons x xs ih =>
    rw [List.map_cons, List.nodup_cons] at hnodup
    obtain ⟨hfirst, hrest⟩ := List.forall_mem_cons.mp hnew
    obtain ⟨hadv, hat⟩ := (Advances.refl ha).insert hfirst (hkind _ x)
    have hnew' : ∀ y ∈ xs,
        lookup? ⟨a.types.push (entry x), (name x, a.size) :: a.names⟩ (name y) = none := by
      intro y hy
      have hne : name y ≠ name x := fun he => hnodup.1 (he ▸ List.mem_map_of_mem hy)
      rw [lookup?_cons_of_ne hne]
      exact hrest y hy
    obtain ⟨ids, a', m', hrun, hadv', hids, hats, hnames, htypes⟩ :=
      ih hadv.holds hnodup.2 hnew'
    refine ⟨a.size :: ids, a', m', ?_, hadv.trans hadv', ?_, .cons (hat.advances hadv') hats, ?_,
      ?_⟩
    · rw [List.mapM_cons]
      apply (bind_apply rfl).trans
      exact (bind_apply hrun).trans rfl
    · rw [hids, List.length_append, ← ha.length_eq]
      rfl
    · rw [hnames, List.map_cons, List.reverse_cons, List.append_assoc]
      rfl
    · rw [htypes, List.append_assoc]
      rfl

theorem lookup_reverse {entries : List (String × α)} (h : (entries.map Prod.fst).Nodup)
    (name : String) : entries.reverse.lookup name = entries.lookup name := by
  induction entries with
  | nil => rfl
  | cons e entries ih =>
    obtain ⟨key, x⟩ := e
    rw [List.map_cons, List.nodup_cons] at h
    rw [List.reverse_cons, List.lookup_append, ih h.2, List.lookup_cons, List.lookup_cons,
      List.lookup_nil]
    cases hkey : name == key with
    | false => exact Option.or_none
    | true =>
      have hnone : entries.lookup name = none := by
        rw [eq_of_beq hkey]
        apply List.lookup_eq_none_iff.mpr
        intro e he
        apply bne_iff_ne.mpr
        intro hname
        have hmem : e.1 ∈ entries.map Prod.fst := List.mem_map_of_mem he
        exact h.1 (hname ▸ hmem)
      rw [hnone, Option.none_or]

theorem nodup_declarations (hd : d.HasProperNames) : (d.declarations.map Prod.fst).Nodup := by
  have hdistinct := hd.distinct
  rw [Document.declaredNames, List.append_assoc] at hdistinct
  rw [Document.declarations, List.map_append, List.map_map, List.map_map]
  exact (List.nodup_append.mp hdistinct).2.1

/-- The declarations are found alike in either order, as their names are distinct. -/
theorem Holds.of_reverse (h : a.Holds m) (hd : d.HasProperNames)
    (hnames : m.names = d.declarations.reverse) (htypes : m.types = d.declarations.map Prod.snd) :
    a.Holds ⟨d.declarations, d.declarations.map Prod.snd⟩ := by
  constructor
  · exact htypes ▸ h.stores
  · intro name
    have hrel := h.names name
    rw [Meanings.lookup?, hnames, htypes, lookup_reverse (nodup_declarations hd)] at hrel
    exact hrel

theorem nodup_range'_append (n k : Nat) : (List.range' 0 n ++ List.range' n k).Nodup := by
  have happend := @List.range'_append_1 0 n k
  rw [Nat.zero_add] at happend
  rw [happend]
  exact List.nodup_range'

/-- The structs and variants have places of their own, without parts. -/
theorem exists_reserved (hd : d.HasProperNames) :
    ∃ structIds variantIds a₁ a₂,
      (d.structs.mapM fun s => (insert s.name (.struct s.name []) : Storing SchemaError TypeId))
        ⟨#[], []⟩ = .ok (structIds, a₁) ∧
      (d.variants.mapM fun v => (insert v.name (.variant v.name []) : Storing SchemaError TypeId))
        a₁ = .ok (variantIds, a₂) ∧
      a₂.Holds ⟨d.declarations, d.declarations.map Prod.snd⟩ ∧
      (structIds ++ variantIds).Nodup ∧
      Result.Each (fun s i => IsAt a₂ ⟨d.declarations, d.declarations.map Prod.snd⟩ s.name i
        (.struct s.name)) d.structs structIds ∧
      Result.Each (fun v i => IsAt a₂ ⟨d.declarations, d.declarations.map Prod.snd⟩ v.name i
        (.variant v.name)) d.variants variantIds := by
  have hdisjoint := hd.disjoint
  obtain ⟨structIds, a₁, m₁, hstructs, hadv₁, hids₁, hats₁, hnames₁, htypes₁⟩ :=
    exists_insertAll (ε := SchemaError) holds_empty
      (fun ts (s : StructDef) => Entry.is_struct_nil ts s.name)
      hdisjoint.structs fun _ _ => rfl
  have hnew : ∀ v ∈ d.variants, a₁.lookup? v.name = none := by
    intro v hv
    rw [hadv₁.holds.lookup?_eq_none, Meanings.lookup?, hnames₁, List.append_nil,
      List.lookup_eq_none_iff]
    intro e he
    obtain ⟨s, hs, rfl⟩ := List.mem_map.mp (List.mem_reverse.mp he)
    exact bne_iff_ne.mpr (Ne.symm (hdisjoint.struct_variant s hs v hv))
  obtain ⟨variantIds, a₂, m₂, hvariants, hadv₂, hids₂, hats₂, hnames₂, htypes₂⟩ :=
    exists_insertAll (ε := SchemaError) hadv₁.holds
      (fun ts (v : VariantDef) => Entry.is_variant_nil ts v.name)
      hdisjoint.variants hnew
  -- Names are remembered with the last one first.
  have hnames : m₂.names = d.declarations.reverse := by
    rw [hnames₂, hnames₁, List.append_nil, Document.declarations, List.reverse_append]
  have htypes : m₂.types = d.declarations.map Prod.snd := by
    rw [htypes₂, htypes₁, List.nil_append, Document.declarations, List.map_append, List.map_map,
      List.map_map]
    rfl
  have hnodup : (structIds ++ variantIds).Nodup := by
    rw [hids₁, hids₂, htypes₁, List.nil_append, List.length_map, List.length_nil]
    exact nodup_range'_append _ _
  refine ⟨structIds, variantIds, a₁, a₂, hstructs, hvariants,
    hadv₂.holds.of_reverse hd hnames htypes, hnodup, ?_, ?_⟩
  · apply hats₁.mono
    intro s i hat
    have hat₂ := hat.advances hadv₂
    exact ⟨hat₂.place, htypes ▸ hat₂.type⟩
  · apply hats₂.mono
    intro v i hat
    exact ⟨hat.place, htypes ▸ hat.type⟩

theorem HasFields.grows (h : HasFields d s i a) (hgrows : Grows ids a a') (hi : i ∉ ids) :
    HasFields d s i a' := by
  obtain ⟨fields, hflat, hparts⟩ := h
  exact ⟨fields, hflat, hparts.grows hgrows hi⟩

theorem HasMembers.grows (h : HasMembers v i a) (hgrows : Grows ids a a') (hi : i ∉ ids) :
    HasMembers v i a' :=
  HasParts.grows h hgrows hi

/-- Whether each declared struct and variant has a place, with all its parts. -/
structure IsFull (a : Arena) (d : Document) : Prop where
  structs : ∀ s ∈ d.structs, ∃ i, a.lookup? s.name = some i ∧ HasFields d s i a
  variants : ∀ v ∈ d.variants, ∃ i, a.lookup? v.name = some i ∧ HasMembers v i a

theorem agrees_placeAll (hd : d.HasProperNames) :
    Agrees (fun p q => p.2.Holds q.2 ∧ p.2.IsFull d) (d.placeAll ⟨#[], []⟩)
      (d.resolveAll ⟨d.declarations, d.declarations.map Prod.snd⟩) := by
  obtain ⟨structIds, variantIds, a₁, a₂, hstructs, hvariants, hholds, hnodup, hstructsAt,
    hvariantsAt⟩ := exists_reserved hd
  obtain ⟨hstructIds, hvariantIds, hapart⟩ := List.nodup_append.mp hnodup
  rw [Document.placeAll, Document.resolveAll, bind_apply hstructs, bind_apply hvariants]
  have hfields := agrees_fillAll (fun s i a m => agrees_fillStruct (d := d) s)
    (fun s i ids a a' hi hgrows hfull => hfull.grows hgrows hi) hholds hstructIds
    (hstructsAt.mono fun s i hat => hat.type)
  apply hfields.bind
  rintro u a₃ structs m₃ ⟨hadv₃, hfull₃⟩
  have hmembers := agrees_fillAll (fun v i a m => agrees_fillVariant (d := d) v)
    (fun v i ids a a' hi hgrows hfull => hfull.grows hgrows hi) hadv₃.holds hvariantIds
    (hvariantsAt.mono fun v i hat => hadv₃.getElem? hat.type)
  apply hmembers.bind
  rintro u a₄ variants m₄ ⟨hadv₄, hfull₄⟩
  apply (follows_rest structs variants a₄ m₄ hadv₄.holds).mono
  rintro p q ⟨hadv₅, -⟩
  have hgrown := hadv₄.trans hadv₅
  refine ⟨hadv₅.holds, ?_, ?_⟩
  · intro s hs
    obtain ⟨i, hi, hat, hfull⟩ := (hstructsAt.and hfull₃).mem_left hs
    -- Members are filled into the places of variants, and this is the place of a struct.
    have hapart' : i ∉ variantIds ++ [] := by
      rw [List.append_nil]
      exact fun hi' => hapart i hi i hi' rfl
    exact ⟨i, hgrown.grows.names _ _ (hadv₃.grows.names _ _ hat.place),
      hfull.grows hgrown.grows hapart'⟩
  · intro v hv
    obtain ⟨i, -, hat, hfull⟩ := (hvariantsAt.and hfull₄).mem_left hv
    exact ⟨i, hgrown.grows.names _ _ (hadv₃.grows.names _ _ hat.place),
      hfull.grows hadv₅.grows List.not_mem_nil⟩

/-- The types of a document are stored as they are found: for the same cause not, or each in its
place. -/
theorem build_agrees (d : Document) :
    Agrees (fun a t => a.Holds t.meanings ∧ a.IsFull d) (build d) (TypeTable.build d) := by
  rw [build, TypeTable.build]
  cases hnames : Document.checkNames [] d.declaredNames with
  | error e => exact .error
  | ok u =>
    have hplaced := agrees_placeAll (Document.checkDeclared_eq_ok.mp hnames)
    change Agrees _ (d.placeAll ⟨#[], []⟩ >>= fun p => pure p.2)
      (d.resolveAll ⟨d.declarations, d.declarations.map Prod.snd⟩ >>= fun q =>
        pure (TypeTable.mk q.1.1 q.1.2 q.2))
    generalize d.placeAll ⟨#[], []⟩ = stored at hplaced
    generalize d.resolveAll _ = found at hplaced
    cases hplaced with
    | error => exact .error
    | ok h => exact .ok h

end ChainKit.Abi.Arena
