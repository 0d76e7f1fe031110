import ChainKit.Proofs.Preserving
import ChainKit.Proofs.Wire.Delimiting

namespace ChainKit.Wire
set_option autoImplicit true

namespace Reader

/-- The number of bytes of the data, those before the reader and those behind it. -/
def size (r : Reader) : Nat := r.position + r.remaining

theorem LeadsTo.size_eq {r r' : Reader} (h : r.LeadsTo r') : r'.size = r.size := by
  obtain ⟨used, hrest, hposition⟩ := h
  rw [size, size, remaining, remaining, hrest, hposition, List.length_append, Nat.add_assoc]

theorem LeadsTo.position_le {r r' : Reader} (h : r.LeadsTo r') : r.position ≤ r'.position := by
  obtain ⟨used, -, hposition⟩ := h
  rw [hposition]
  exact Nat.le_add_right _ _

theorem LeadsTo.rest_eq {r : Reader} (h : (ofBytes data).LeadsTo r) :
    r.position ≤ data.length ∧ r.rest = data.drop r.position := by
  obtain ⟨used, hrest, hposition⟩ := h
  have hdata : data = used ++ r.rest := hrest
  have hused : r.position = used.length := hposition.trans (Nat.zero_add used.length)
  rw [hused, hdata, List.length_append, List.drop_left]
  exact ⟨Nat.le_add_right _ _, rfl⟩

theorem position_le_size (r : Reader) : r.position ≤ r.size := Nat.le_add_right _ _

theorem size_ofBytes (bs : Bytes) : (ofBytes bs).size = bs.length := Nat.zero_add _

end Reader

/-- Whether a read of data of `n` bytes moves forward, also if it fails, and each of its failures
has a property. -/
def Located (n : Nat) (x : EStateM ε Reader α) (P : ε → Prop) : Prop :=
  ∀ r, r.size = n → r.LeadsTo (final (x r)) ∧ ∀ e r', x r = .error e r' → P e

namespace Located

variable {P : ε → Prop}

theorem pure (a : α) : Located n (Pure.pure a) P := by
  intro r _
  exact ⟨.refl r, nofun⟩

theorem throw (h : P e) : Located n (throw e : EStateM ε Reader α) P := by
  intro r _
  refine ⟨.refl r, ?_⟩
  rintro e' r' ⟨⟩
  exact h

theorem bind {x : EStateM ε Reader α} {f : α → EStateM ε Reader β} (hx : Located n x P)
    (hf : ∀ a, Located n (f a) P) : Located n (x >>= f) P := by
  intro r hn
  obtain ⟨hleads, hfails⟩ := hx r hn
  cases hr : x r with
  | ok a r' =>
    rw [hr] at hleads
    have hn' : r'.size = n := hleads.size_eq.trans hn
    obtain ⟨hleads', hfails'⟩ := hf a r' hn'
    rw [bind_ok hr]
    exact ⟨hleads.trans hleads', hfails'⟩
  | error e r' =>
    rw [hr] at hleads
    rw [bind_error hr]
    refine ⟨hleads, ?_⟩
    rintro e' r'' ⟨⟩
    exact hfails e r' hr

theorem map {x : EStateM ε Reader α} (f : α → β) (h : Located n x P) :
    Located n (x >>= fun a => Pure.pure (f a)) P := h.bind fun a => pure (f a)

theorem position {f : Nat → EStateM ε Reader α} (h : ∀ p ≤ n, Located n (f p) P) :
    Located n ((do return (← get).position) >>= f) P := by
  intro r hn
  exact h r.position (hn ▸ r.position_le_size) r hn

theorem adapt {x : EStateM ε Reader α} {Q : ε' → Prop} {g : ε → ε'} (h : Located n x P)
    (hg : ∀ e, P e → Q (g e)) : Located n (EStateM.adaptExcept g x) Q := by
  intro r hn
  obtain ⟨hleads, hfails⟩ := h r hn
  simp only [EStateM.adaptExcept]
  cases hr : x r with
  | ok a r' =>
    rw [hr] at hleads
    exact ⟨hleads, nofun⟩
  | error e r' =>
    rw [hr] at hleads
    refine ⟨hleads, ?_⟩
    rintro e' r'' ⟨⟩
    exact hg e (hfails e r' hr)

theorem ite {c : Prop} [Decidable c] {x y : EStateM ε Reader α} (hx : Located n x P)
    (hy : Located n y P) : Located n (if c then x else y) P := by
  split
  · exact hx
  · exact hy

theorem mono {x : EStateM ε Reader α} {Q : ε → Prop} (h : Located n x P)
    (hpq : ∀ e, P e → Q e) : Located n x Q := by
  intro r hn
  obtain ⟨hleads, hfails⟩ := h r hn
  exact ⟨hleads, fun e r' hr => hpq e (hfails e r' hr)⟩

end Located

/-- Whether a read takes `n` bytes, or fails where it stands if there are fewer. -/
structure IsSized (n : Nat) (x : Read α) : Prop where
  ok : ∀ r : Reader, n ≤ r.remaining → ∃ a, x r = .ok a (r.advance n)
  error : ∀ r : Reader, r.remaining < n → x r = .error ⟨r.position, .endOfData n r.remaining⟩ r

/-- Whether an error is at a place in data of `n` bytes. -/
def Error.IsIn (n : Nat) (e : Error) : Prop := e.offset ≤ n

namespace IsSized

theorem map {x : Read α} (f : α → β) (h : IsSized n x) :
    IsSized n (x >>= fun a => pure (f a)) where
  ok r hn := by
    obtain ⟨a, ha⟩ := h.ok r hn
    exact ⟨f a, bind_ok ha⟩
  error r hn := bind_error (h.error r hn)

theorem eq_of_error {x : Read α} (h : IsSized n x) (hr : x r = .error e r') :
    r' = r ∧ e = ⟨r.position, .endOfData n r.remaining⟩ := by
  rcases Nat.lt_or_ge r.remaining n with hn | hn
  · rw [h.error r hn] at hr
    cases hr
    exact ⟨rfl, rfl⟩
  · obtain ⟨a, ha⟩ := h.ok r hn
    rw [ha] at hr
    cases hr

theorem located {x : Read α} (h : IsSized n x) (size : Nat) : Located size x (Error.IsIn size) := by
  rintro r rfl
  rcases Nat.lt_or_ge r.remaining n with hn | hn
  · rw [h.error r hn]
    refine ⟨.refl r, ?_⟩
    rintro e r' ⟨⟩
    exact r.position_le_size
  · obtain ⟨a, ha⟩ := h.ok r hn
    rw [ha]
    exact ⟨Reader.leadsTo_advance hn, nofun⟩

end IsSized

namespace Read

theorem isSized_bytes (n : Nat) : IsSized n (bytes n) where
  ok r hn := by
    have hlength : (r.rest.take n).length = n := List.length_take_of_le hn
    refine ⟨r.rest.take n, ?_⟩
    simp only [bytes, hlength, if_true]
  error r hn := by
    have hlength : (r.rest.take n).length ≠ n := fun h => Nat.not_le.mpr hn (le_length_of_take h)
    simp only [bytes, hlength, if_false]

theorem isSized_blob (n : Nat) : IsSized n (blob n) where
  ok r hn := by
    have hblob : Blob.ofBytes? n (r.rest.take n) = some ⟨r.rest.take n, List.length_take_of_le hn⟩ :=
      Blob.ofBytes?_eq_some.mpr rfl
    refine ⟨⟨r.rest.take n, List.length_take_of_le hn⟩, ?_⟩
    simp only [blob, hblob]
  error r hn := by
    have hnone : Blob.ofBytes? n (r.rest.take n) = none :=
      Blob.ofBytes?_eq_none.mpr fun h => Nat.not_le.mpr hn (le_length_of_take h)
    simp only [blob, hnone]

theorem isSized_byte : IsSized 1 byte := (isSized_bytes 1).map _

end Read

theorem IsComposed.located {x : Read α} (h : IsComposed (· ≤ n) x) :
    Located n x (Error.IsIn n) := by
  induction h with
  | pure a => exact .pure a
  | throw h => exact .throw h
  | bytes m => exact (Read.isSized_bytes m).located n
  | blob m => exact (Read.isSized_blob m).located n
  | bind _ _ ihx ihf => exact ihx.bind ihf
  | position _ ih => exact .position ih

/-- What can be asked of a reader: bytes, a blob, one byte, or a variable-length integer. -/
inductive Request where
  | bytes (n : Nat)
  | blob (n : Nat)
  | byte
  | varuint
  | varint
deriving DecidableEq, Repr

namespace Request

def width? : Request → Option Nat
  | bytes n => some n
  | blob n => some n
  | byte => some 1
  | varuint => none
  | varint => none

def run : Request → Read Unit
  | bytes n => do let _ ← Read.bytes n
  | blob n => do let _ ← Read.blob n
  | byte => do let _ ← Read.byte
  | varuint => do let _ ← Read.varuint
  | varint => do let _ ← Read.varint

theorem isSized_run {q : Request} (h : q.width? = some n) : IsSized n q.run := by
  cases q with
  | bytes n =>
    cases h
    exact (Read.isSized_bytes n).map _
  | blob n =>
    cases h
    exact (Read.isSized_blob n).map _
  | byte =>
    cases h
    exact Read.isSized_byte.map _
  | varuint => cases h
  | varint => cases h

theorem isComposed_run {P : Nat → Prop} (q : Request) : IsComposed P q.run := by
  cases q with
  | bytes n => exact (IsComposed.bytes n).map _
  | blob n => exact (IsComposed.blob n).map _
  | byte => exact Read.isComposed_byte.map _
  | varuint => exact Read.isComposed_varuint.map _
  | varint => exact Read.isComposed_varint.map _

end Request

namespace Reader

/-- The reader behind requests, whether each of them was met or not. -/
def after (r : Reader) (requests : List Request) : Reader :=
  requests.foldl (fun r q => final (q.run r)) r

theorem leadsTo_after (r : Reader) (requests : List Request) : r.LeadsTo (r.after requests) := by
  induction requests generalizing r with
  | nil => exact .refl r
  | cons q requests ih =>
    have hstep : r.LeadsTo (final (q.run r)) := (q.isComposed_run.located r rfl).1
    exact hstep.trans (ih (final (q.run r)))

end Reader
end ChainKit.Wire
