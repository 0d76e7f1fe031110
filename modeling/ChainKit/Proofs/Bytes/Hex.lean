import ChainKit.Bytes.Hex
import ChainKit.Checksum
import ChainKit.Proofs.Result
import ChainKit.Proofs.Text.Utf8

namespace ChainKit

namespace Hex
set_option autoImplicit true

theorem ascii_of_mem_digits (h : c ∈ digits b) : c.toNat < 128 := by
  have hd (d : Nat) (h : d < 16) : (Nat.digitChar d).toNat < 128 := by
    revert d
    decide
  have hb := b.toNat_lt
  rcases List.mem_cons.1 h with rfl | h
  · exact hd _ (by omega)
  · rw [List.mem_singleton.1 h]
    exact hd _ (by omega)

theorem digitValue?_digitChar (h : d < 16) :
    digitValue? (UInt8.ofNat (Nat.digitChar d).toNat) = some (UInt8.ofNat d) := by
  revert d
  decide

theorem joinHalves (b : UInt8) :
    UInt8.ofNat (b.toNat / 16) * 16 + UInt8.ofNat (b.toNat % 16) = b := by
  have hb := b.toNat_lt
  apply UInt8.toNat.inj
  simp only [UInt8.toNat_add, UInt8.toNat_mul, UInt8.toNat_ofNat', UInt8.reduceToNat]
  omega

theorem decodePairs_encodeChars (i : Nat) (bs : Bytes) :
    decodePairs i ((encodeChars bs).map fun c => UInt8.ofNat c.toNat) = .ok bs := by
  induction bs generalizing i with
  | nil => rfl
  | cons b bs ih =>
    have hb := b.toNat_lt
    have hhigh := digitValue?_digitChar (show b.toNat / 16 < 16 by omega)
    have hlow := digitValue?_digitChar (show b.toNat % 16 < 16 by omega)
    change decodePairs i (UInt8.ofNat (Nat.digitChar (b.toNat / 16)).toNat ::
      UInt8.ofNat (Nat.digitChar (b.toNat % 16)).toNat ::
        (encodeChars bs).map fun c => UInt8.ofNat c.toNat) = _
    rw [decodePairs, hhigh, hlow]
    simp only [ih, joinHalves]
    rfl

theorem length_encodeChars (bs : Bytes) : (encodeChars bs).length = 2 * bs.length := by
  induction bs with
  | nil => rfl
  | cons b bs ih =>
    have hc : encodeChars (b :: bs) = digits b ++ encodeChars bs := rfl
    rw [hc, List.length_append, ih, digits, List.length_cons, List.length_singleton,
      List.length_cons]
    omega

@[simp] theorem decode_encode (bs : Bytes) : decode (encode bs) = .ok bs := by
  have hascii : ∀ c ∈ encodeChars bs, c.toNat < 128 := by
    intro c hc
    obtain ⟨b, _, hb⟩ := List.mem_flatMap.1 hc
    exact ascii_of_mem_digits hb
  have hbytes : (encode bs).toByteArray.data.toList =
      (encodeChars bs).map fun c => UInt8.ofNat c.toNat := Utf8.encode_ascii hascii
  rw [decode, hbytes]
  simp only [List.length_map, length_encodeChars]
  rw [if_neg (by omega), decodePairs_encodeChars]

set_option maxRecDepth 4000 in
theorem digitChar_digitValue (h : digitValue? b = some v) :
    v.toNat < 16 ∧ b.toNat < 128 ∧ Nat.digitChar v.toNat = (Char.ofNat b.toNat).toLower := by
  have hall : ∀ n, n < 256 → (digitValue? (UInt8.ofNat n)).all fun v =>
      v.toNat < 16 ∧ n < 128 ∧ Nat.digitChar v.toNat = (Char.ofNat n).toLower := by
    decide
  have hb := hall b.toNat b.toNat_lt
  rw [UInt8.ofNat_toNat, h] at hb
  exact of_decide_eq_true hb

theorem digits_joined (hh : h.toNat < 16) (hl : l.toNat < 16) :
    digits (h * 16 + l) = [Nat.digitChar h.toNat, Nat.digitChar l.toNat] := by
  have hjoined : (h * 16 + l).toNat = h.toNat * 16 + l.toNat := by
    simp only [UInt8.toNat_add, UInt8.toNat_mul, UInt8.reduceToNat]
    omega
  rw [digits, hjoined, show (h.toNat * 16 + l.toNat) / 16 = h.toNat by omega,
    show (h.toNat * 16 + l.toNat) % 16 = l.toNat by omega]

theorem encodeChars_of_decodePairs (h : decodePairs i ds = .ok bs) (heven : ds.length % 2 = 0) :
    (∀ b ∈ ds, b.toNat < 128) ∧
      encodeChars bs = ds.map fun b => (Char.ofNat b.toNat).toLower := by
  fun_induction decodePairs i ds generalizing bs with
  | case1 => cases h
  | case2 => cases h
  | case3 i hi lo rest high hhigh low hlow ih =>
    obtain ⟨bs', hbs, rfl⟩ := Result.map_eq_ok.mp h
    have hrest : rest.length % 2 = 0 := by
      simp only [List.length_cons] at heven
      omega
    obtain ⟨hascii, hchars⟩ := ih hbs hrest
    obtain ⟨hh, hhi, hhc⟩ := digitChar_digitValue hhigh
    obtain ⟨hl, hlo, hlc⟩ := digitChar_digitValue hlow
    constructor
    · simp only [List.forall_mem_cons]
      exact ⟨hhi, hlo, hascii⟩
    · rw [encodeChars, List.flatMap_cons, digits_joined hh hl, hhc, hlc]
      exact congrArg (_ :: _ :: ·) hchars
  | case4 ds i hshort =>
    cases h
    match ds with
    | [] => exact ⟨nofun, rfl⟩
    | [b] => cases heven
    | hi :: lo :: rest => exact (hshort hi lo rest rfl).elim

/-- A text that is read as bytes is written, for these bytes, in lower case. -/
theorem encode_of_decode (h : decode s = .ok bs) : encode bs = s.toLower := by
  rw [decode] at h
  split at h
  · cases h
  · rename_i hodd
    obtain ⟨hascii, hchars⟩ := encodeChars_of_decodePairs h (by omega)
    have hlower : s.toLower = s.map Char.toLower := rfl
    apply String.ext
    rw [encode, String.toList_ofList, hchars, hlower, String.toList_map, Utf8.toList_ascii hascii,
      List.map_map]
    rfl

end Hex

namespace Checksum
set_option autoImplicit true

@[simp] theorem parse_text (c : Checksum n) : parse n c.text = .ok c := by
  simp [parse, text, ofBytes]

end Checksum
end ChainKit
