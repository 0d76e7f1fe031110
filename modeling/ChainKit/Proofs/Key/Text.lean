import ChainKit.Key.Text
import ChainKit.Proofs.Bytes.Base58

namespace ChainKit

namespace Text
set_option autoImplicit true

@[simp] theorem after?_append (start rest : List Char) :
    after? start (start ++ rest) = some rest := by
  simp [after?, List.isPrefixOf_iff_prefix]

end Text

namespace Key
set_option autoImplicit true

theorem length_checksum (payload salt : Bytes) : (checksum payload salt).length = 4 := by
  simp [checksum, Hash.length_ripemd160Bytes]

theorem splitChecksum_append (b : Blob n) (h : check.length = 4) :
    splitChecksum n (b.bytes ++ check) = .ok (b, check) := by
  have htake : (b.bytes ++ check).take n = b.bytes := List.take_left' b.length_eq
  have hdrop : (b.bytes ++ check).drop n = check := List.drop_left' b.length_eq
  rw [splitChecksum, htake, Blob.ofBytes?_bytes]
  simp [b.length_eq, h, hdrop]

theorem checked_encodeChars (text : String) (salt : Bytes) (b : Blob n) :
    checked n text salt (Base58.encodeChars (b.bytes ++ checksum b.bytes salt)) = .ok b := by
  have hraw : base58 (Base58.encodeChars (b.bytes ++ checksum b.bytes salt)) =
      .ok (b.bytes ++ checksum b.bytes salt) := by
    rw [base58, Base58.decodeChars_encodeChars]
    rfl
  rw [checked, hraw]
  simp [bind, Except.bind, splitChecksum_append b (length_checksum b.bytes salt)]
  rfl

theorem toList_tagged (mark : String) (type : KeyType) (payload : Bytes) :
    (tagged mark type payload).toList = mark.toList ++ (curveMark type ++
      Base58.encodeChars (payload ++ checksum payload (salt type))) := by
  simp [tagged, curveMark, Base58.encode]

theorem readTagged_tagged (mark : String) (type : KeyType) (b : Blob n) :
    readTagged n mark (tagged mark type b.bytes) = .ok (some (type, b)) := by
  rw [readTagged, toList_tagged, Text.after?_append]
  cases type with
  | k1 =>
    simp only [Text.after?_append]
    rw [checked_encodeChars]
    rfl
  | r1 =>
    have hk : Text.after? (curveMark .k1)
        (curveMark .r1 ++ Base58.encodeChars (b.bytes ++ checksum b.bytes (salt .r1))) = none := rfl
    simp only [hk, Text.after?_append]
    rw [checked_encodeChars]
    rfl

end Key

@[simp] theorem PublicKey.parse_text (k : PublicKey) : parse k.text = .ok k := by
  rw [parse, text, Key.readTagged_tagged]
  rfl

@[simp] theorem PrivateKey.parse_text (k : PrivateKey) : parse k.text = .ok k := by
  rw [parse, text, Key.readTagged_tagged]
  rfl

@[simp] theorem Signature.parse_text (s : Signature) : parse s.text = .ok s := by
  rw [parse, text, Key.readTagged_tagged]
  rfl

end ChainKit
