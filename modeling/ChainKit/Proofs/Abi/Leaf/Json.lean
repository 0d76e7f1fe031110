import ChainKit.Abi.Leaf
import ChainKit.Proofs.Bytes.Hex
import ChainKit.Proofs.Key.Text
import ChainKit.Proofs.Name.Text
import ChainKit.Proofs.Result
import ChainKit.Proofs.Time.Text
import ChainKit.Proofs.Token.Asset

namespace ChainKit.Abi

namespace Builtin

/-- The types whose values may change when they are shown. -/
def IsFloat (b : Builtin) : Prop := b = .float32 ∨ b = .float64

instance : DecidablePred IsFloat := fun _ => inferInstanceAs (Decidable (_ ∨ _))

/-- The types whose values may have no text that is read. -/
def IsToken (b : Builtin) : Prop :=
  b = .symbol ∨ b = .symbolCode ∨ b = .asset ∨ b = .extendedAsset

instance : DecidablePred IsToken := fun _ => inferInstanceAs (Decidable (_ ∨ _))

end Builtin

namespace Leaf
set_option autoImplicit true

def type : Leaf → Builtin
  | .bool _ => .bool
  | .int w _ => .int w
  | .uint w _ => .uint w
  | .varint _ => .varint
  | .varuint _ => .varuint
  | .float32 _ => .float32
  | .float64 _ => .float64
  | .float128 _ => .float128
  | .timePoint _ => .timePoint
  | .timePointSec _ => .timePointSec
  | .blockTimestamp _ => .blockTimestamp
  | .name _ => .name
  | .bytes _ => .bytes
  | .string _ => .string
  | .checksum size _ => .checksum size
  | .publicKey _ => .publicKey
  | .privateKey _ => .privateKey
  | .signature _ => .signature
  | .symbol _ => .symbol
  | .symbolCode _ => .symbolCode
  | .asset _ => .asset
  | .extendedAsset _ => .extendedAsset

/-- Whether a value is one that its type can be asked to hold. -/
def IsValid : Leaf → Prop
  | .int w i => fitsSigned w.bits i
  | .uint w n => n < 2 ^ w.bits
  | .varint i => fitsSigned 32 i
  | .varuint n => n < 2 ^ 32
  | .bytes bs => bs.length < 2 ^ 32
  | .string s => (Utf8.encode s).length < 2 ^ 32
  | .symbol s => s.IsProper
  | .symbolCode c => c.IsLettered
  | .asset a => a.symbol.IsProper
  | .extendedAsset a => a.quantity.symbol.IsProper
  | _ => True

/-- Whether a value is no time out of range. -/
def IsRepresentable : Leaf → Prop
  | .timePoint t => t.isRepresentable
  | _ => True

instance : DecidablePred IsRepresentable
  | .timePoint t => inferInstanceAs (Decidable (t.isRepresentable = true))
  | .bool _ | .int _ _ | .uint _ _ | .varint _ | .varuint _ | .float32 _ | .float64 _ | .float128 _
  | .timePointSec _ | .blockTimestamp _ | .name _ | .bytes _ | .string _ | .checksum _ _
  | .publicKey _ | .privateKey _ | .signature _ | .symbol _ | .symbolCode _ | .asset _
  | .extendedAsset _ => .isTrue trivial

theorem toJson_ne_null (l : Leaf) : l.toJson ≠ .null := by
  have hfloat (x : Binary64) : showFloat x ≠ .null := by
    rw [showFloat]
    split
    · exact nofun
    · split <;> exact nofun
  cases l with
  | int w i =>
    rw [toJson]
    split <;> exact nofun
  | uint w n =>
    rw [toJson]
    split <;> exact nofun
  | float32 bits => exact hfloat _
  | float64 x => exact hfloat _
  | _ => exact nofun

theorem parseText_eq_ok {read : String → Except ε α} (h : parseText what read fault v = .ok a) :
    ∃ s, v = .str s ∧ read s = .ok a := by
  cases v with
  | str s => exact ⟨s, rfl, Result.mapError_eq_ok.mp h⟩
  | _ => cases h

theorem parseSigned_eq_ok (h : parseSigned b bits v = .ok i) : fitsSigned bits i := by
  obtain ⟨j, -, hj⟩ := Result.bind_eq_ok.mp h
  split at hj
  · cases hj
    assumption
  · cases hj

theorem parseUnsigned_eq_ok (h : parseUnsigned b bits v = .ok n) : n < 2 ^ bits := by
  obtain ⟨m, -, hm⟩ := Result.bind_eq_ok.mp h
  split at hm
  · cases hm
    assumption
  · cases hm

theorem checkLength_eq_ok (h : checkLength bs = .ok u) : bs.length < 2 ^ 32 := by
  rw [checkLength] at h
  split at h
  · assumption
  · cases h

theorem parseAsset_eq_ok (h : parseAsset v = .ok a) : a.symbol.IsProper := by
  obtain ⟨s, rfl, hs⟩ := parseText_eq_ok h
  exact Asset.isProper_of_parse hs

theorem parseExtendedAsset_eq_ok (h : parseExtendedAsset v = .ok a) :
    a.quantity.symbol.IsProper := by
  cases v with
  | obj members =>
    rw [parseExtendedAsset] at h
    split at h
    · cases h
    · cases h
    · obtain ⟨quantity, hq, h⟩ := Result.bind_eq_ok.mp h
      obtain ⟨contract, -, h⟩ := Result.bind_eq_ok.mp h
      cases h
      exact parseAsset_eq_ok hq
  | _ => cases h

/-- A parsed value has the type that it was parsed as, and lies in its range. -/
theorem type_of_parse (h : parse b v = .ok l) : l.type = b ∧ l.IsValid := by
  cases b with
  | bool =>
    cases v with
    | bool b =>
      cases h
      exact ⟨rfl, trivial⟩
    | _ => cases h
  | int w =>
    obtain ⟨i, hi, rfl⟩ := Result.map_eq_ok.mp h
    exact ⟨rfl, parseSigned_eq_ok hi⟩
  | uint w =>
    obtain ⟨n, hn, rfl⟩ := Result.map_eq_ok.mp h
    exact ⟨rfl, parseUnsigned_eq_ok hn⟩
  | varint =>
    obtain ⟨i, hi, rfl⟩ := Result.map_eq_ok.mp h
    exact ⟨rfl, parseSigned_eq_ok hi⟩
  | varuint =>
    obtain ⟨n, hn, rfl⟩ := Result.map_eq_ok.mp h
    exact ⟨rfl, parseUnsigned_eq_ok hn⟩
  | bytes =>
    obtain ⟨bs, -, h⟩ := Result.bind_eq_ok.mp h
    obtain ⟨u, hu, h⟩ := Result.bind_eq_ok.mp h
    cases h
    exact ⟨rfl, checkLength_eq_ok hu⟩
  | string =>
    obtain ⟨s, -, h⟩ := Result.bind_eq_ok.mp h
    obtain ⟨u, hu, h⟩ := Result.bind_eq_ok.mp h
    cases h
    exact ⟨rfl, checkLength_eq_ok hu⟩
  | symbol =>
    obtain ⟨s, hs, rfl⟩ := Result.map_eq_ok.mp h
    obtain ⟨text, rfl, hp⟩ := parseText_eq_ok hs
    exact ⟨rfl, Symbol.isProper_of_parse hp⟩
  | symbolCode =>
    obtain ⟨c, hc, rfl⟩ := Result.map_eq_ok.mp h
    obtain ⟨text, rfl, hp⟩ := parseText_eq_ok hc
    exact ⟨rfl, text.toList, hp⟩
  | asset =>
    obtain ⟨a, ha, rfl⟩ := Result.map_eq_ok.mp h
    exact ⟨rfl, parseAsset_eq_ok ha⟩
  | extendedAsset =>
    obtain ⟨a, ha, rfl⟩ := Result.map_eq_ok.mp h
    exact ⟨rfl, parseExtendedAsset_eq_ok ha⟩
  | _ =>
    obtain ⟨a, ha, rfl⟩ := Result.map_eq_ok.mp h
    exact ⟨rfl, trivial⟩

theorem parseInt_ofInt (i : Int) : parseInt (.ofInt i) = .ok i := rfl

theorem parseInt_showInt (h : -(2 ^ 127) ≤ i ∧ i < 2 ^ 127) :
    parseInt (.str (Decimal.showInt i)) = .ok i := by
  simp only [parseInt, Decimal.showInt, String.toList_ofList, Decimal.trim_ofInt,
    Decimal.int?_ofInt, Option.filter_some, h, and_self, decide_true, if_true]

theorem parseNat_ofNat (n : Nat) : parseNat (.ofNat n) = .ok n := by
  simp [parseNat, Json.ofNat, Json.ofInt]

theorem parseNat_showNat (h : n < 2 ^ 128) : parseNat (.str (Decimal.showNat n)) = .ok n := by
  simp only [parseNat, Decimal.showNat, String.toList_ofList, Decimal.trim_ofNat,
    Decimal.nat?_ofNat, Option.filter_some, h, decide_true, if_true]

theorem parseSigned_of_parseInt (hv : parseInt v = .ok i) (h : fitsSigned bits i) :
    parseSigned b bits v = .ok i := by
  rw [parseSigned, hv]
  exact if_pos h

theorem parseUnsigned_of_parseNat (hv : parseNat v = .ok n) (h : n < 2 ^ bits) :
    parseUnsigned b bits v = .ok n := by
  rw [parseUnsigned, hv]
  exact if_pos h

theorem fitsSigned_iff (bits : Nat) (i : Int) :
    fitsSigned bits i ↔ -(2 ^ (bits - 1)) ≤ i ∧ i < 2 ^ (bits - 1) := by
  simp [fitsSigned]

theorem fits_widest {w : Width} (h : fitsSigned w.bits i) : -(2 ^ 127) ≤ i ∧ i < 2 ^ 127 := by
  rw [fitsSigned_iff] at h
  cases w <;> simp only [Width.bits, Width.bytes] at h <;> omega

theorem lt_widest {w : Width} (h : n < 2 ^ w.bits) : n < 2 ^ 128 :=
  Nat.lt_of_lt_of_le h (Nat.pow_le_pow_right (by decide) (by cases w <;> decide))

theorem parseText_str {read : String → Except ε α} (h : read s = .ok a) :
    parseText what read fault (.str s) = .ok a :=
  Result.mapError_eq_ok.mpr h

theorem checkLength_of_lt (h : bs.length < 2 ^ 32) : checkLength bs = .ok () := if_pos h

theorem parseExtendedAsset_members (hq : parseAsset quantity = .ok q)
    (hc : parseName contract = .ok n) :
    parseExtendedAsset (.obj [("quantity", quantity), ("contract", contract)]) = .ok ⟨q, n⟩ := by
  have hsecond : List.lookup "contract" [("quantity", quantity), ("contract", contract)] =
      some contract := rfl
  simp only [parseExtendedAsset, Json.member?, List.lookup_cons_self, hsecond, hq, hc, bind,
    Except.bind]
  rfl

/-- A value in the range of its type parses back from what it is shown as. -/
theorem parse_toJson {l : Leaf} (h : l.IsValid) (hr : l.IsRepresentable) (hf : ¬l.type.IsFloat) :
    parse l.type l.toJson = .ok l := by
  cases l with
  | bool => rfl
  | int w i =>
    have hv : parseInt (toJson (.int w i)) = .ok i := by
      rw [toJson]
      split
      · exact parseInt_ofInt i
      · exact parseInt_showInt (fits_widest h)
    exact Result.map_eq_ok.mpr ⟨i, parseSigned_of_parseInt hv h, rfl⟩
  | uint w n =>
    have hv : parseNat (toJson (.uint w n)) = .ok n := by
      rw [toJson]
      split
      · exact parseNat_ofNat n
      · exact parseNat_showNat (lt_widest h)
    exact Result.map_eq_ok.mpr ⟨n, parseUnsigned_of_parseNat hv h, rfl⟩
  | varint i =>
    exact Result.map_eq_ok.mpr ⟨i, parseSigned_of_parseInt (parseInt_ofInt i) h, rfl⟩
  | varuint n =>
    exact Result.map_eq_ok.mpr ⟨n, parseUnsigned_of_parseNat (parseNat_ofNat n) h, rfl⟩
  | float32 => exact absurd (.inl rfl) hf
  | float64 => exact absurd (.inr rfl) hf
  | float128 b =>
    have hb : parseBlob 16 (.str (Hex.encode b.bytes)) = .ok b := by
      have hhex : parseHex (.str (Hex.encode b.bytes)) = .ok b.bytes :=
        parseText_str (Hex.decode_encode b.bytes)
      simp only [parseBlob, hhex, bind, Except.bind, Blob.ofBytes?_bytes]
      rfl
    exact Result.map_eq_ok.mpr ⟨b, hb, rfl⟩
  | timePoint t =>
    exact Result.map_eq_ok.mpr ⟨t, parseText_str (TimePoint.parse_text hr), rfl⟩
  | timePointSec t =>
    rw [type, toJson, parse, parseText_str t.parse_text]
    rfl
  | blockTimestamp t =>
    rw [type, toJson, parse, parseText_str t.parse_text]
    rfl
  | name n => exact Result.map_eq_ok.mpr ⟨n, parseText_str (Name.parse_text n), rfl⟩
  | bytes bs =>
    have hhex : parseHex (.str (Hex.encode bs)) = .ok bs := parseText_str (Hex.decode_encode bs)
    exact Result.bind_eq_ok.mpr ⟨bs, hhex, Result.bind_eq_ok.mpr ⟨(), checkLength_of_lt h, rfl⟩⟩
  | string s =>
    exact Result.bind_eq_ok.mpr ⟨s, rfl, Result.bind_eq_ok.mpr ⟨(), checkLength_of_lt h, rfl⟩⟩
  | checksum size c =>
    exact Result.map_eq_ok.mpr ⟨c, parseText_str (Checksum.parse_text c), rfl⟩
  | publicKey k => exact Result.map_eq_ok.mpr ⟨k, parseText_str (PublicKey.parse_text k), rfl⟩
  | privateKey k => exact Result.map_eq_ok.mpr ⟨k, parseText_str (PrivateKey.parse_text k), rfl⟩
  | signature s => exact Result.map_eq_ok.mpr ⟨s, parseText_str (Signature.parse_text s), rfl⟩
  | symbol s =>
    exact Result.map_eq_ok.mpr ⟨s, parseText_str (Symbol.IsProper.parse_text h), rfl⟩
  | symbolCode c =>
    exact Result.map_eq_ok.mpr ⟨c, parseText_str (SymbolCode.IsLettered.parse_text h), rfl⟩
  | asset a => exact Result.map_eq_ok.mpr ⟨a, parseText_str (Asset.parse_text h), rfl⟩
  | extendedAsset a =>
    have hq : parseAsset (showAsset a.quantity) = .ok a.quantity :=
      parseText_str (Asset.parse_text h)
    have hc : parseName (.str a.contract.text) = .ok a.contract :=
      parseText_str (Name.parse_text a.contract)
    exact Result.map_eq_ok.mpr ⟨a, parseExtendedAsset_members hq hc, rfl⟩

end Leaf
end ChainKit.Abi
