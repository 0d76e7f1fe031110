import ChainKit.Text.Utf8

namespace ChainKit.Utf8
set_option autoImplicit true

theorem encode_ofList (cs : List Char) :
    encode (String.ofList cs) = cs.flatMap String.utf8EncodeChar := by
  simp [encode, List.utf8Encode]

theorem utf8EncodeChar_ascii (h : c.toNat < 128) :
    String.utf8EncodeChar c = [UInt8.ofNat c.toNat] := by
  simp only [String.utf8EncodeChar]
  exact if_pos (show c.toNat ≤ 127 by omega)

theorem encode_ascii (h : ∀ c ∈ cs, c.toNat < 128) :
    encode (String.ofList cs) = cs.map fun c => UInt8.ofNat c.toNat := by
  rw [encode_ofList]
  induction cs with
  | nil => rfl
  | cons c cs ih =>
    rw [List.flatMap_cons, List.map_cons, utf8EncodeChar_ascii (h c List.mem_cons_self),
      ih fun d hd => h d (List.mem_cons_of_mem _ hd)]
    rfl

theorem encode_inj (h : encode s = encode s') : s = s' := by
  apply Option.some.inj
  rw [← decode?_encode s, h, decode?_encode]

theorem ofNat_toNat_ascii {b : UInt8} (h : b.toNat < 128) :
    UInt8.ofNat (Char.ofNat b.toNat).toNat = b := by
  have hchar : ∀ n, n < 128 → (Char.ofNat n).toNat = n := by decide
  rw [hchar _ h, UInt8.ofNat_toNat]

theorem toList_ascii (h : ∀ b ∈ encode s, b.toNat < 128) :
    s.toList = (encode s).map fun b => Char.ofNat b.toNat := by
  have hchar : ∀ n, n < 128 → (Char.ofNat n).toNat < 128 := by decide
  have hs : s = String.ofList ((encode s).map fun b => Char.ofNat b.toNat) := by
    apply encode_inj
    rw [encode_ascii, List.map_map]
    · have hbytes := List.map_congr_left fun b hb => ofNat_toNat_ascii (h b hb)
      exact (hbytes.trans (List.map_id _)).symm
    · intro c hc
      obtain ⟨b, hb, rfl⟩ := List.mem_map.mp hc
      exact hchar _ (h b hb)
  have hlist := congrArg String.toList hs
  rwa [String.toList_ofList] at hlist

theorem length_encode (s : String) : (encode s).length = s.utf8ByteSize := by
  rw [encode, Array.length_toList]
  exact String.size_toByteArray

theorem utf8ByteSize_ascii (h : ∀ c ∈ cs, c.toNat < 128) :
    (String.ofList cs).utf8ByteSize = cs.length := by
  rw [← length_encode, encode_ascii h, List.length_map]

end ChainKit.Utf8
