import ChainKit.Proofs.Abi.Content
import ChainKit.Proofs.Abi.Leaf.Wire

namespace ChainKit.Abi.Content
set_option autoImplicit true
open Wire

mutual

/-- Bytes spell a content if each count, tag and length, and each variable-length integer that is a
value, is spelled in one of its forms, and all else as in the wire form. -/
def IsSpelledBy : Content → Bytes → Prop
  | leaf l, used => l.IsSpelledBy used
  | struct fs, used => FieldsAreSpelledBy fs used
  | variant tag _ c, used =>
    ∃ front back, used = front ++ back ∧ Spells front tag ∧ c.IsSpelledBy back
  | array cs, used =>
    ∃ front back, used = front ++ back ∧ Spells front cs.length ∧ ItemsAreSpelledBy cs back
  | null, used => used = [0]
  | given c, used => ∃ back, used = 1 :: back ∧ c.IsSpelledBy back
  | absent, used => used = []
  | present c, used => c.IsSpelledBy used

def FieldsAreSpelledBy : List (String × Content) → Bytes → Prop
  | [], used => used = []
  | (_, c) :: rest, used =>
    ∃ front back, used = front ++ back ∧ c.IsSpelledBy front ∧ FieldsAreSpelledBy rest back

def ItemsAreSpelledBy : List Content → Bytes → Prop
  | [], used => used = []
  | c :: rest, used =>
    ∃ front back, used = front ++ back ∧ c.IsSpelledBy front ∧ ItemsAreSpelledBy rest back

end

theorem fieldsAreSpelledBy_absent (fs : List Field) :
    FieldsAreSpelledBy (fs.map fun f => (f.name, absent)) [] := by
  induction fs with
  | nil => rfl
  | cons f fs ih => exact ⟨[], [], rfl, rfl, ih⟩

mutual

/-- No spelling of a content is shorter than its wire form. -/
theorem IsSpelledBy.eq_or_shorter : {c : Content} → {used : Bytes} → c.IsSpelledBy used →
    c.bytes = used ∨ c.bytes.length < used.length
  | leaf _, _, h => Leaf.IsSpelledBy.eq_or_shorter h
  | struct _, _, h => FieldsAreSpelledBy.eq_or_shorter h
  | variant _ _ _, _, ⟨_, _, hused, htag, hc⟩ => by
    rw [hused]
    exact eq_or_shorter_append htag.eq_or_shorter hc.eq_or_shorter
  | array _, _, ⟨_, _, hused, hcount, hcs⟩ => by
    rw [hused]
    exact eq_or_shorter_append hcount.eq_or_shorter hcs.eq_or_shorter
  | null, _, h => .inl (Eq.symm h)
  | given _, _, ⟨_, hused, hc⟩ => by
    rw [hused]
    have hmark : ([1] : Bytes) = [1] ∨ ([1] : Bytes).length < ([1] : Bytes).length := .inl rfl
    exact eq_or_shorter_append hmark hc.eq_or_shorter
  | absent, _, h => .inl (Eq.symm h)
  | present c, _, h => IsSpelledBy.eq_or_shorter (c := c) h

theorem FieldsAreSpelledBy.eq_or_shorter : {cs : List (String × Content)} → {used : Bytes} →
    FieldsAreSpelledBy cs used → fieldsBytes cs = used ∨ (fieldsBytes cs).length < used.length
  | [], _, h => .inl (Eq.symm h)
  | (_, _) :: _, _, ⟨_, _, hused, hc, hcs⟩ => by
    rw [hused]
    exact eq_or_shorter_append hc.eq_or_shorter hcs.eq_or_shorter

theorem ItemsAreSpelledBy.eq_or_shorter : {cs : List Content} → {used : Bytes} →
    ItemsAreSpelledBy cs used → itemsBytes cs = used ∨ (itemsBytes cs).length < used.length
  | [], _, h => .inl (Eq.symm h)
  | _ :: _, _, ⟨_, _, hused, hc, hcs⟩ => by
    rw [hused]
    exact eq_or_shorter_append hc.eq_or_shorter hcs.eq_or_shorter

end

end ChainKit.Abi.Content
