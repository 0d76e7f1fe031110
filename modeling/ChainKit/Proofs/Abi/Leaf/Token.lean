import ChainKit.Proofs.Abi.Leaf.Wire

namespace ChainKit

def Symbol.isSpelled (s : Symbol) : Bool := s.precision ≤ Token.maxPrecision && s.code.isValid

theorem Symbol.isProper_iff_isSpelled {s : Symbol} : s.IsProper ↔ s.isSpelled := by
  rw [isProper_iff, isSpelled, Bool.and_eq_true, decide_eq_true_eq]

namespace Abi

namespace Leaf
set_option autoImplicit true
open Wire

/-- Whether a token value is one that its text spells, to be seen from its bytes. -/
def isSpelled : Leaf → Bool
  | .symbol s => s.isSpelled
  | .symbolCode c => c.isValid && c.letters.length ≤ 7
  | .asset a => a.symbol.isSpelled
  | .extendedAsset a => a.quantity.symbol.isSpelled
  | _ => true

theorem isValid_iff_isSpelled {l : Leaf} (h : l.type.IsToken) : l.IsValid ↔ l.isSpelled := by
  cases l with
  | symbol s => exact Symbol.isProper_iff_isSpelled
  | symbolCode c =>
    rw [IsValid, isSpelled, SymbolCode.isLettered_iff, Bool.and_eq_true, decide_eq_true_eq]
  | asset a => exact Symbol.isProper_iff_isSpelled
  | extendedAsset a => exact Symbol.isProper_iff_isSpelled
  | _ => simp [type, Builtin.IsToken] at h

/-- A token value that is read takes its own wire form, spelled or not. -/
theorem takes_token {b : Builtin} (h : b.IsToken) :
    Takes (read strict b) fun used l => l.type = b ∧ l.toBytes = used := by
  rcases h with rfl | rfl | rfl | rfl
  · exact takes_word64.map fun used w hw => ⟨rfl, hw.symm⟩
  · exact takes_word64.map fun used w hw => ⟨rfl, hw.symm⟩
  · exact takes_asset.map fun used a ha => ⟨rfl, ha.symm⟩
  · refine takes_asset.bind ?_
    rintro used a rfl
    exact takes_name.map fun used n hn => ⟨rfl, hn ▸ rfl⟩

theorem isRepresentable_token {l : Leaf} (h : l.type.IsToken) : l.IsRepresentable := by
  cases l with
  | timePoint t => simp [type, Builtin.IsToken] at h
  | _ => trivial

theorem not_isFloat_token {b : Builtin} (h : b.IsToken) : ¬b.IsFloat := by
  rcases h with rfl | rfl | rfl | rfl <;> decide

end Leaf

namespace Builtin
set_option autoImplicit true
open Wire

theorem encode_eq_ok {b : Builtin} (h : b.encode v = .ok bs) :
    ∃ l, Leaf.parse b v = .ok l ∧ l.toBytes = bs := Result.map_eq_ok.mp h

/-- A token value decodes from its own wire form. The JSON that it is shown as encodes to the bytes
that were read just if the value is spelled; otherwise it encodes to other bytes, or not at all. -/
theorem encode_decode_token {b : Builtin} (hb : b.IsToken) (h : b.decode strict r = .ok v r') :
    ∃ used l, r.rest = used ++ r'.rest ∧ Leaf.read strict b r = .ok l r' ∧ l.toJson = v ∧
      l.toBytes = used ∧ (b.encode v = .ok used ↔ l.isSpelled) := by
  obtain ⟨l, s, hl, hv⟩ := bind_eq_ok h
  cases hv
  obtain ⟨used, hrest, rfl, hused⟩ := Leaf.takes_token hb _ _ _ hl
  refine ⟨used, l, hrest, hl, rfl, hused, ?_⟩
  rw [← Leaf.isValid_iff_isSpelled hb]
  constructor
  · intro hencode
    -- what is parsed back has the same bytes, and bytes are read as one value only
    obtain ⟨l', hparse, hbytes⟩ := encode_eq_ok hencode
    obtain ⟨htype, hvalid⟩ := Leaf.type_of_parse hparse
    have hrepr := Leaf.isRepresentable_token (htype ▸ hb)
    have hreads := Leaf.reads_toBytes strict hvalid hrepr r'.rest
    obtain ⟨position, rest⟩ := r
    cases hrest
    rw [htype, hbytes] at hreads
    obtain ⟨rfl, -⟩ := hreads.eq_of_ok hl
    exact hvalid
  · intro hvalid
    have hrepr := Leaf.isRepresentable_token hb
    have hparse := Leaf.parse_toJson hvalid hrepr (Leaf.not_isFloat_token hb)
    exact Result.map_eq_ok.mpr ⟨l, hparse, hused⟩

def ownedBytes : Bytes :=
  [16, 39, 0, 0, 0, 0, 0, 0, 4, 83, 89, 83, 0, 0, 0, 0, 0, 0, 0, 0, 0, 0, 14, 61]

def owned : Json := .obj [("quantity", .str "1.0000 SYS"), ("contract", .str "bob")]

theorem encode_decode_token_owned :
    decode .extendedAsset true (.ofBytes (ownedBytes ++ [7])) = .ok owned ⟨24, [7]⟩ ∧
      encode .extendedAsset owned = .ok ownedBytes := by
  have hdecode : decode .extendedAsset true (.ofBytes (ownedBytes ++ [7])) =
    .ok owned ⟨24, [7]⟩ := rfl
  obtain ⟨used, l, hrest, hread, -, -, hencode⟩ :=
    encode_decode_token (.inr (.inr (.inr rfl))) hdecode
  cases List.append_cancel_right hrest
  cases hread
  exact ⟨hdecode, hencode.mpr rfl⟩

/-- Symbols that are decoded although no text spells them. One with a letter behind a zero byte
encodes to a symbol without that letter; one with a small letter and one with 19 decimal places do
not encode. -/
theorem not_encode_decode_unspelled :
    (decode .symbol true (.ofBytes [4, 83, 0, 83, 0, 0, 0, 0]) = .ok (.str "4,S") ⟨8, []⟩ ∧
      encode .symbol (.str "4,S") = .ok [4, 83, 0, 0, 0, 0, 0, 0]) ∧
    (decode .symbol true (.ofBytes [4, 97, 0, 0, 0, 0, 0, 0]) = .ok (.str "4,a") ⟨8, []⟩ ∧
      encode .symbol (.str "4,a") = .error (.token (.code "a"))) ∧
    decode .symbol true (.ofBytes [19, 83, 0, 0, 0, 0, 0, 0]) = .ok (.str "19,S") ⟨8, []⟩ ∧
      encode .symbol (.str "19,S") = .error (.token (.precision "19")) :=
  ⟨⟨rfl, rfl⟩, ⟨rfl, rfl⟩, rfl, rfl⟩

end Builtin
end Abi
end ChainKit
