import ChainKit.Proofs.Key.Text

namespace ChainKit

namespace Text
set_option autoImplicit true

theorem after?_eq_some : after? start cs = some rest ↔ cs = start ++ rest := by
  constructor
  · intro h
    rw [after?] at h
    split at h
    · rename_i hprefix
      cases h
      exact (List.prefix_iff_eq_append.mp (List.isPrefixOf_iff_prefix.mp hprefix)).symm
    · cases h
  · rintro rfl
    exact after?_append start rest

theorem after?_eq_none (h : ∀ rest, cs ≠ start ++ rest) : after? start cs = none := by
  cases hafter : after? start cs with
  | none => rfl
  | some rest => exact absurd (after?_eq_some.mp hafter) (h rest)

end Text

namespace Key
set_option autoImplicit true

theorem length_wifChecksum (payload : Bytes) : (wifChecksum payload).length = 4 := by
  simp [wifChecksum, (Hash.sha256Twice payload).length_eq]

theorem splitChecksum_eq_ok {b : Blob n} :
    splitChecksum n raw = .ok (b, check) ↔ raw = b.bytes ++ check ∧ check.length = 4 := by
  constructor
  · intro h
    rw [splitChecksum] at h
    split at h
    · rename_i payload hpayload
      split at h
      · rename_i hlen
        cases h
        rw [Blob.ofBytes?_eq_some.mp hpayload, List.take_append_drop, List.length_drop]
        exact ⟨rfl, by omega⟩
      · cases h
    · cases h
  · rintro ⟨rfl, hlen⟩
    exact splitChecksum_append b hlen

theorem payload_eq_ok {b : Blob n} : payload n bs = .ok b ↔ b.bytes = bs := by
  rw [← Blob.ofBytes?_eq_some, payload]
  split
  · rename_i b' hb'
    rw [hb']
    simp
  · rename_i hnone
    rw [hnone]
    exact ⟨nofun, nofun⟩

theorem base58_eq_ok : base58 cs = .ok raw ↔ cs = Base58.encodeChars raw := by
  rw [base58, Result.mapError_eq_ok, Base58.decodeChars_eq_ok]

theorem checked_eq_ok {salt : Bytes} {b : Blob n} : checked n text salt body = .ok b ↔
    body = Base58.encodeChars (b.bytes ++ checksum b.bytes salt) := by
  constructor
  · intro h
    obtain ⟨raw, hraw, hrest⟩ := Result.bind_eq_ok.mp h
    obtain ⟨⟨payload, check⟩, hsplit, hpayload⟩ := Result.bind_eq_ok.mp hrest
    obtain ⟨rfl, -⟩ := splitChecksum_eq_ok.mp hsplit
    simp only at hpayload
    split at hpayload
    · rename_i hcheck
      cases hpayload
      rw [hcheck]
      exact base58_eq_ok.mp hraw
    · cases hpayload
  · rintro rfl
    exact checked_encodeChars text salt b

/-- Bytes are a payload and a checksum in one way only. -/
theorem append_check_inj {b b' : Blob n} (h : b.bytes ++ check = b'.bytes ++ check') :
    b = b' ∧ check = check' := by
  obtain ⟨hbytes, hcheck⟩ := List.append_inj h (b.length_eq.trans b'.length_eq.symm)
  exact ⟨Blob.ext_bytes hbytes, hcheck⟩

/-- A text that begins with a mark of its kind, and goes on with Base58 of a payload and a checksum
that may be another one. -/
def claimed (mark : String) (type : KeyType) (payload check : Bytes) : String :=
  mark ++ type.text ++ "_" ++ Base58.encode (payload ++ check)

theorem toList_claimed (mark : String) (type : KeyType) (payload check : Bytes) :
    (claimed mark type payload check).toList =
      mark.toList ++ (curveMark type ++ Base58.encodeChars (payload ++ check)) := by
  simp [claimed, curveMark, Base58.encode]

theorem length_curveMark (type : KeyType) : (curveMark type).length = 3 := by
  cases type with
  | k1 => rfl
  | r1 => rfl

theorem curveMark_inj (h : curveMark type = curveMark type') : type = type' := by
  cases type with
  | k1 =>
    cases type' with
    | k1 => rfl
    | r1 => cases h
  | r1 =>
    cases type' with
    | k1 => cases h
    | r1 => rfl

theorem claimed_inj {b b' : Blob n}
    (h : claimed mark type b.bytes check = claimed mark type' b'.bytes check') :
    type = type' ∧ b = b' ∧ check = check' := by
  have hchars := congrArg String.toList h
  rw [toList_claimed, toList_claimed] at hchars
  have hlen := (length_curveMark type).trans (length_curveMark type').symm
  obtain ⟨hcurve, hbody⟩ := List.append_inj (List.append_cancel_left hchars) hlen
  exact ⟨curveMark_inj hcurve, append_check_inj (Base58.encodeChars_inj hbody)⟩

theorem readTagged_eq_some {b : Blob n} :
    readTagged n mark text = .ok (some (type, b)) ↔ text = tagged mark type b.bytes := by
  constructor
  · intro h
    apply String.ext
    rw [toList_tagged]
    rw [readTagged] at h
    split at h
    · cases h
    · rename_i rest hrest
      rw [Text.after?_eq_some.mp hrest]
      congr 1
      split at h
      · rename_i body hbody
        obtain ⟨payload, hread, he⟩ := Result.map_eq_ok.mp h
        cases he
        rw [Text.after?_eq_some.mp hbody, checked_eq_ok.mp hread]
      · split at h
        · rename_i body hbody
          obtain ⟨payload, hread, he⟩ := Result.map_eq_ok.mp h
          cases he
          rw [Text.after?_eq_some.mp hbody, checked_eq_ok.mp hread]
        · split at h
          · cases h
          · cases h
  · rintro rfl
    exact readTagged_tagged mark type b

/-- Only with its own checksum is a marked text what some payload is written as. -/
theorem claimed_eq_tagged_iff {b b' : Blob n} :
    claimed mark type b.bytes check = tagged mark type' b'.bytes ↔
      type' = type ∧ b' = b ∧ check = checksum b.bytes (salt type) := by
  constructor
  · intro h
    obtain ⟨rfl, rfl, rfl⟩ := claimed_inj h
    exact ⟨rfl, rfl, rfl⟩
  · rintro ⟨rfl, rfl, rfl⟩
    rfl

theorem readTagged_eq_none (h : ∀ rest, text.toList ≠ mark.toList ++ rest) :
    readTagged n mark text = .ok none := by
  rw [readTagged, Text.after?_eq_none h]

end Key

namespace PublicKey
set_option autoImplicit true

def claimedLegacy (payload check : Bytes) : String := "EOS" ++ Base58.encode (payload ++ check)

theorem toList_claimedLegacy (payload check : Bytes) : (claimedLegacy payload check).toList =
    "EOS".toList ++ Base58.encodeChars (payload ++ check) := by
  simp [claimedLegacy, Base58.encode]

theorem toList_claimedLegacy_ne (payload check : Bytes) (rest : List Char) :
    (claimedLegacy payload check).toList ≠ "PUB_".toList ++ rest := by
  rw [toList_claimedLegacy]
  exact nofun

theorem legacyText_eq_ok {k : PublicKey} : k.legacyText = .ok s ↔
    k.type = .k1 ∧ s = claimedLegacy k.data.bytes (Key.checksum k.data.bytes []) := by
  obtain ⟨type, data⟩ := k
  cases type with
  | k1 =>
    constructor
    · rintro ⟨⟩
      exact ⟨rfl, rfl⟩
    · rintro ⟨-, rfl⟩
      rfl
  | r1 => exact ⟨nofun, nofun⟩

theorem parse_eq_ok {k : PublicKey} : parse s = .ok k ↔ s = k.text ∨ k.legacyText = .ok s := by
  constructor
  · intro h
    obtain ⟨front, hfront, h⟩ := Result.bind_eq_ok.mp h
    cases front with
    | some tagged =>
      cases h
      exact .inl (Key.readTagged_eq_some.mp hfront)
    | none =>
      simp only at h
      split at h
      · cases h
      · rename_i body hbody
        obtain ⟨data, hdata, h⟩ := Result.bind_eq_ok.mp h
        cases h
        refine .inr (legacyText_eq_ok.mpr ⟨rfl, String.ext ?_⟩)
        rw [toList_claimedLegacy, Text.after?_eq_some.mp hbody, Key.checked_eq_ok.mp hdata]
  · rintro (rfl | hlegacy)
    · exact k.parse_text
    · obtain ⟨type, data⟩ := k
      obtain ⟨rfl, rfl⟩ := legacyText_eq_ok.mp hlegacy
      rw [parse, Key.readTagged_eq_none (toList_claimedLegacy_ne _ _)]
      simp only [bind, Except.bind, toList_claimedLegacy, Text.after?_append,
        Key.checked_encodeChars]
      rfl

theorem exists_legacyText {k : PublicKey} (h : k.type = .k1) :
    ∃ s, k.legacyText = .ok s ∧ parse s = .ok k := by
  have hlegacy := legacyText_eq_ok.mpr ⟨h, rfl⟩
  exact ⟨_, hlegacy, parse_eq_ok.mpr (.inr hlegacy)⟩

theorem parse_claimed {type : KeyType} {data : Blob 33} :
    parse (Key.claimed "PUB_" type data.bytes check) = .ok k ↔
      k = ⟨type, data⟩ ∧ check = Key.checksum data.bytes (Key.salt type) := by
  rw [parse_eq_ok]
  constructor
  · rintro (htext | hlegacy)
    · obtain ⟨rfl, rfl, hcheck⟩ := Key.claimed_eq_tagged_iff.mp htext
      exact ⟨rfl, hcheck⟩
    · obtain ⟨-, he⟩ := legacyText_eq_ok.mp hlegacy
      have hlist := congrArg String.toList he.symm
      rw [Key.toList_claimed] at hlist
      exact absurd hlist (toList_claimedLegacy_ne _ _ _)
  · rintro ⟨rfl, rfl⟩
    exact .inl rfl

theorem parse_claimedLegacy {data : Blob 33} : parse (claimedLegacy data.bytes check) = .ok k ↔
    k = ⟨.k1, data⟩ ∧ check = Key.checksum data.bytes [] := by
  rw [parse_eq_ok]
  constructor
  · rintro (htext | hlegacy)
    · have hlist := congrArg String.toList htext
      rw [text, Key.toList_tagged] at hlist
      exact absurd hlist (toList_claimedLegacy_ne _ _ _)
    · obtain ⟨type, data'⟩ := k
      obtain ⟨rfl, he⟩ := legacyText_eq_ok.mp hlegacy
      have hlist := congrArg String.toList he
      rw [toList_claimedLegacy, toList_claimedLegacy] at hlist
      obtain ⟨rfl, hcheck⟩ := Key.append_check_inj
        (Base58.encodeChars_inj (List.append_cancel_left hlist))
      exact ⟨rfl, hcheck⟩
  · rintro ⟨rfl, rfl⟩
    exact .inr rfl

end PublicKey

namespace PrivateKey
set_option autoImplicit true

def claimedWif (payload check : Bytes) : String := Base58.encode (wifVersion :: payload ++ check)

theorem toList_claimedWif (payload check : Bytes) : (claimedWif payload check).toList =
    Base58.encodeChars (wifVersion :: payload ++ check) :=
  String.toList_ofList

theorem wif_eq_ok {k : PrivateKey} : k.wif = .ok s ↔ k.type = .k1 ∧
    s = claimedWif k.data.bytes (Key.wifChecksum (wifVersion :: k.data.bytes)) := by
  obtain ⟨type, data⟩ := k
  cases type with
  | k1 =>
    constructor
    · rintro ⟨⟩
      exact ⟨rfl, rfl⟩
    · rintro ⟨-, rfl⟩
      rfl
  | r1 => exact ⟨nofun, nofun⟩

theorem parseWif_eq_ok {k : PrivateKey} : parseWif s = .ok k ↔ k.wif = .ok s := by
  constructor
  · intro h
    obtain ⟨raw, hraw, hrest⟩ := Result.bind_eq_ok.mp h
    obtain ⟨⟨versioned, check⟩, hsplit, hkey⟩ := Result.bind_eq_ok.mp hrest
    obtain ⟨rfl, -⟩ := Key.splitChecksum_eq_ok.mp hsplit
    simp only at hkey
    split at hkey
    · cases hkey
    · split at hkey
      · cases hkey
      · rename_i hversion hcheck
        obtain ⟨data, hdata, he⟩ := Result.bind_eq_ok.mp hkey
        cases he
        have htail := Key.payload_eq_ok.mp hdata
        have hbytes : versioned.bytes = wifVersion :: data.bytes := by
          obtain ⟨rest, hrest⟩ := List.head?_eq_some_iff.mp (Decidable.not_not.mp hversion)
          rw [htail, hrest]
          rfl
        refine wif_eq_ok.mpr ⟨rfl, String.ext ?_⟩
        rw [Key.base58_eq_ok.mp hraw, ← Decidable.not_not.mp hcheck, hbytes, toList_claimedWif]
  · intro h
    obtain ⟨type, data⟩ := k
    obtain ⟨rfl, rfl⟩ := wif_eq_ok.mp h
    have hlen : (wifVersion :: data.bytes).length = 33 := by
      rw [List.length_cons, data.length_eq]
    have hraw := Key.base58_eq_ok.mpr
      (toList_claimedWif data.bytes (Key.wifChecksum (wifVersion :: data.bytes)))
    have hsplit := (Key.splitChecksum_eq_ok (b := ⟨wifVersion :: data.bytes, hlen⟩)).mpr
      ⟨rfl, Key.length_wifChecksum (wifVersion :: data.bytes)⟩
    refine Result.bind_eq_ok.mpr ⟨_, hraw, Result.bind_eq_ok.mpr ⟨_, hsplit, ?_⟩⟩
    simp only [List.head?_cons, ne_eq, not_true, if_false]
    exact Result.bind_eq_ok.mpr ⟨data, Key.payload_eq_ok.mpr rfl, rfl⟩

/-- No Base58 text begins with the mark of private keys, which has a character that is no symbol. -/
theorem toList_claimedWif_ne (payload check : Bytes) (rest : List Char) :
    (claimedWif payload check).toList ≠ "PVT_".toList ++ rest := by
  intro hmarked
  rw [toList_claimedWif] at hmarked
  have hsymbol : '_' ∈ Base58.encodeChars (wifVersion :: payload ++ check) := by
    rw [hmarked]
    exact List.mem_append_left rest (by decide)
  exact absurd (Base58.mem_alphabet hsymbol) (by decide)

theorem parse_eq_ok {k : PrivateKey} : parse s = .ok k ↔ s = k.text ∨ k.wif = .ok s := by
  constructor
  · intro h
    obtain ⟨front, hfront, h⟩ := Result.bind_eq_ok.mp h
    cases front with
    | some tagged =>
      cases h
      exact .inl (Key.readTagged_eq_some.mp hfront)
    | none => exact .inr (parseWif_eq_ok.mp h)
  · rintro (rfl | hwif)
    · exact k.parse_text
    · obtain ⟨-, rfl⟩ := wif_eq_ok.mp hwif
      apply Result.bind_eq_ok.mpr
      exact ⟨none, Key.readTagged_eq_none (toList_claimedWif_ne _ _), parseWif_eq_ok.mpr hwif⟩

theorem exists_wif {k : PrivateKey} (h : k.type = .k1) :
    ∃ s, k.wif = .ok s ∧ parse s = .ok k := by
  have hwif := wif_eq_ok.mpr ⟨h, rfl⟩
  exact ⟨_, hwif, parse_eq_ok.mpr (.inr hwif)⟩

theorem parse_claimed {type : KeyType} {data : Blob 32} :
    parse (Key.claimed "PVT_" type data.bytes check) = .ok k ↔
      k = ⟨type, data⟩ ∧ check = Key.checksum data.bytes (Key.salt type) := by
  rw [parse_eq_ok]
  constructor
  · rintro (htext | hwif)
    · obtain ⟨rfl, rfl, hcheck⟩ := Key.claimed_eq_tagged_iff.mp htext
      exact ⟨rfl, hcheck⟩
    · obtain ⟨-, he⟩ := wif_eq_ok.mp hwif
      have hlist := congrArg String.toList he.symm
      rw [Key.toList_claimed] at hlist
      exact absurd hlist (toList_claimedWif_ne _ _ _)
  · rintro ⟨rfl, rfl⟩
    exact .inl rfl

theorem parse_claimedWif {data : Blob 32} : parse (claimedWif data.bytes check) = .ok k ↔
    k = ⟨.k1, data⟩ ∧ check = Key.wifChecksum (wifVersion :: data.bytes) := by
  rw [parse_eq_ok]
  constructor
  · rintro (htext | hwif)
    · have hlist := congrArg String.toList htext
      rw [text, Key.toList_tagged] at hlist
      exact absurd hlist (toList_claimedWif_ne _ _ _)
    · obtain ⟨type, data'⟩ := k
      obtain ⟨rfl, he⟩ := wif_eq_ok.mp hwif
      have hlist := congrArg String.toList he
      rw [toList_claimedWif, toList_claimedWif] at hlist
      obtain ⟨-, hbytes⟩ := List.cons.inj (Base58.encodeChars_inj hlist)
      obtain ⟨rfl, hcheck⟩ := Key.append_check_inj hbytes
      exact ⟨rfl, hcheck⟩
  · rintro ⟨rfl, rfl⟩
    exact .inr rfl

end PrivateKey

namespace Signature
set_option autoImplicit true

theorem parse_eq_ok {s : String} {sig : Signature} : parse s = .ok sig ↔ s = sig.text := by
  constructor
  · intro h
    obtain ⟨front, hfront, h⟩ := Result.bind_eq_ok.mp h
    cases front with
    | some tagged =>
      cases h
      exact Key.readTagged_eq_some.mp hfront
    | none => cases h
  · rintro rfl
    exact sig.parse_text

theorem parse_claimed {type : KeyType} {data : Blob 65} :
    parse (Key.claimed "SIG_" type data.bytes check) = .ok sig ↔
      sig = ⟨type, data⟩ ∧ check = Key.checksum data.bytes (Key.salt type) := by
  rw [parse_eq_ok]
  constructor
  · intro htext
    obtain ⟨rfl, rfl, hcheck⟩ := Key.claimed_eq_tagged_iff.mp htext
    exact ⟨rfl, hcheck⟩
  · rintro ⟨rfl, rfl⟩
    rfl

end Signature

/-- The texts of a key or signature read back as it, and nothing else is read as it. With another
checksum than its own, a payload is never read. -/
theorem Key.texts_canonical :
    -- Every text that is written is read back.
    (∀ k : PublicKey, PublicKey.parse k.text = .ok k ∧
      (k.type = .k1 → ∃ s, k.legacyText = .ok s ∧ PublicKey.parse s = .ok k)) ∧
    (∀ k : PrivateKey, PrivateKey.parse k.text = .ok k ∧
      (k.type = .k1 → ∃ s, k.wif = .ok s ∧ PrivateKey.parse s = .ok k)) ∧
    (∀ sig : Signature, Signature.parse sig.text = .ok sig) ∧
    -- Every text that is read is one that is written.
    (∀ s k, PublicKey.parse s = .ok k → s = k.text ∨ k.legacyText = .ok s) ∧
    (∀ s k, PrivateKey.parse s = .ok k → s = k.text ∨ k.wif = .ok s) ∧
    (∀ s sig, Signature.parse s = .ok sig → s = sig.text) ∧
    -- A payload is read with its own checksum only, in each form.
    (∀ type (data : Blob 33) check k,
      PublicKey.parse (Key.claimed "PUB_" type data.bytes check) = .ok k ↔
        k = ⟨type, data⟩ ∧ check = Key.checksum data.bytes (Key.salt type)) ∧
    (∀ (data : Blob 33) check k,
      PublicKey.parse (PublicKey.claimedLegacy data.bytes check) = .ok k ↔
        k = ⟨.k1, data⟩ ∧ check = Key.checksum data.bytes []) ∧
    (∀ type (data : Blob 32) check k,
      PrivateKey.parse (Key.claimed "PVT_" type data.bytes check) = .ok k ↔
        k = ⟨type, data⟩ ∧ check = Key.checksum data.bytes (Key.salt type)) ∧
    (∀ (data : Blob 32) check k,
      PrivateKey.parse (PrivateKey.claimedWif data.bytes check) = .ok k ↔
        k = ⟨.k1, data⟩ ∧ check = Key.wifChecksum (PrivateKey.wifVersion :: data.bytes)) ∧
    (∀ type (data : Blob 65) check sig,
      Signature.parse (Key.claimed "SIG_" type data.bytes check) = .ok sig ↔
        sig = ⟨type, data⟩ ∧ check = Key.checksum data.bytes (Key.salt type)) := by
  exact ⟨fun k => ⟨k.parse_text, PublicKey.exists_legacyText⟩,
    fun k => ⟨k.parse_text, PrivateKey.exists_wif⟩,
    fun sig => sig.parse_text,
    fun _ _ => PublicKey.parse_eq_ok.mp,
    fun _ _ => PrivateKey.parse_eq_ok.mp,
    fun _ _ => Signature.parse_eq_ok.mp,
    fun _ _ _ _ => PublicKey.parse_claimed,
    fun _ _ _ => PublicKey.parse_claimedLegacy,
    fun _ _ _ _ => PrivateKey.parse_claimed,
    fun _ _ _ => PrivateKey.parse_claimedWif,
    fun _ _ _ _ => Signature.parse_claimed⟩

end ChainKit
