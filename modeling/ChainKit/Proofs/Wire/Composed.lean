import ChainKit.Proofs.Wire.Varint

namespace ChainKit.Wire
set_option autoImplicit true

/-- Whether a read is put together from reads of bytes and of blobs, and from failures at places in
`P` if the reader only stands at places in `P`. -/
inductive IsComposed (P : Nat → Prop) : {α : Type} → Read α → Prop where
  | pure (a : α) : IsComposed P (Pure.pure a)
  | throw {e : Error} : P e.offset → IsComposed P (throw e : Read α)
  | bytes (n : Nat) : IsComposed P (Read.bytes n)
  | blob (n : Nat) : IsComposed P (Read.blob n)
  | bind {x : Read α} {f : α → Read β} : IsComposed P x → (∀ a, IsComposed P (f a)) →
      IsComposed P (x >>= f)
  | position {f : Nat → Read α} : (∀ p, P p → IsComposed P (f p)) →
      IsComposed P (Read.position >>= f)

namespace IsComposed

theorem map {x : Read α} (f : α → β) (h : IsComposed P x) :
    IsComposed P (x >>= fun a => Pure.pure (f a)) := h.bind fun a => pure (f a)

theorem ite {c : Prop} [Decidable c] {x y : Read α} (hx : IsComposed P x) (hy : IsComposed P y) :
    IsComposed P (if c then x else y) := by
  split
  · exact hx
  · exact hy

end IsComposed

namespace Read

theorem isComposed_byte : IsComposed P byte := (IsComposed.bytes 1).map _

theorem isComposed_nat (width : Nat) : IsComposed P (nat width) := (IsComposed.bytes width).map _

theorem isComposed_groups (h : P start) (left value unit : Nat) :
    IsComposed P (groups start left value unit) := by
  induction left generalizing value unit with
  | zero => exact .throw h
  | succ left ih =>
    rw [groups_succ]
    apply isComposed_byte.bind
    intro b
    apply IsComposed.ite
    · exact .throw h
    · exact .ite (.pure _) (ih _ _)

theorem isComposed_varuint : IsComposed P varuint := by
  apply IsComposed.position
  intro start hstart
  exact isComposed_groups hstart maxGroups 0 1

theorem isComposed_varint : IsComposed P varint := isComposed_varuint.map _

theorem isComposed_lengthPrefixed : IsComposed P lengthPrefixed := isComposed_varuint.bind .bytes

end Read
end ChainKit.Wire
