import ChainKit.Node.Message
import ChainKit.Proofs.Bytes.Base64
import ChainKit.Proofs.Bytes.Hex
import ChainKit.Proofs.Json.Record
import ChainKit.Proofs.Json.Written
import ChainKit.Proofs.Name.Text

namespace ChainKit.RawAbi
set_option autoImplicit true

open Json (Source Record)

/-- The JSON form with a text in the place of that of the packed schema. -/
def withText (a : RawAbi) (text : String) : Json :=
  .obj [("account_name", .str a.account.text), ("code_hash", checksumJson a.codeHash),
    ("abi_hash", checksumJson a.abiHash), ("abi", .str text)]

theorem toJson_eq (a : RawAbi) : a.toJson = a.withText (Base64.encode a.abi) := rfl

def record (a : RawAbi) (text : String) : Record :=
  ⟨[("account_name", .ofJson (.str a.account.text)),
    ("code_hash", .ofJson (checksumJson a.codeHash)),
    ("abi_hash", .ofJson (checksumJson a.abiHash)), ("abi", .ofJson (.str text))]⟩

theorem ofSource?_record (a : RawAbi) (text : String) :
    Record.ofSource? ["account_name", "code_hash", "abi_hash", "abi"] (.ofJson (a.withText text)) =
      some (a.record text) :=
  Record.ofSource?_ofJson (by simp) (by simp)

/-- Only the text of the packed schema decides whether the JSON form is read. -/
theorem ofSource?_withText (a : RawAbi) (text : String) :
    ofSource? (.ofJson (a.withText text)) =
      (Base64.decode? text).map fun abi => { a with abi := abi } := by
  have haccount : (a.record text).required? "account_name" Abi.name? = some a.account :=
    (Record.required?_of_lookup rfl).trans (Source.text?_of_eq_ok (Name.parse_text a.account))
  have hcode : (a.record text).optional? "code_hash" default (checksum? 32) = some a.codeHash :=
    (Record.optional?_of_lookup rfl).trans (Source.text?_of_eq_ok (Checksum.parse_text a.codeHash))
  have hhash : (a.record text).required? "abi_hash" (checksum? 32) = some a.abiHash :=
    (Record.required?_of_lookup rfl).trans (Source.text?_of_eq_ok (Checksum.parse_text a.abiHash))
  have habi : (a.record text).required? "abi" (fun s => s.string?.bind Base64.decode?) =
      Base64.decode? text :=
    (Record.required?_of_lookup rfl).trans rfl
  rw [ofSource?, ofSource?_record]
  simp only [Option.bind_eq_bind, Option.bind_some, haccount, hcode, hhash, habi]
  cases Base64.decode? text <;> rfl

theorem parse?_withText (a : RawAbi) (text : String) :
    Source.parse? (Json.render (a.withText text)) = some (.ofJson (a.withText text)) :=
  Json.parse?_render (a.withText text)

/-- The JSON form is read back. With another text of the packed schema it is read just if the text
without the pad characters at its end is what is written for some bytes, which are then the packed
schema, and more or fewer pad characters make no difference. What is written for bytes are the
digits of their number in base 64. -/
theorem base64_text :
    (∀ a : RawAbi, (Source.parse? (Json.render a.toJson)).bind ofSource? = some a) ∧
    (∀ (a b : RawAbi) (text : String),
      (Source.parse? (Json.render (a.withText text))).bind ofSource? = some b ↔
        ∃ bs, text.toList.rdropWhile (· = '=') = Base64.encodeUnpadded bs ∧
          b = { a with abi := bs }) ∧
    (∀ (a : RawAbi) (text : String) (k : Nat),
      (Source.parse? (Json.render
          (a.withText (text ++ String.ofList (List.replicate k '='))))).bind ofSource? =
        (Source.parse? (Json.render (a.withText text))).bind ofSource?) ∧
    ∀ bs, ∃ ds, Base64.encodeUnpadded bs = ds.map Base64.symbol ∧ (∀ d ∈ ds, d < 64) ∧
      3 * ds.length = 4 * bs.length + Base64.missing bs.length ∧
      Radix.value 64 ds = Bytes.toNatBE bs * 4 ^ Base64.missing bs.length := by
  refine ⟨fun a => ?_, fun a b text => ?_, fun a text k => ?_, Base64.exists_digits⟩
  · rw [toJson_eq, parse?_withText, Option.bind_some, ofSource?_withText, Base64.decode?_encode]
    rfl
  · rw [parse?_withText, Option.bind_some, ofSource?_withText, Option.map_eq_some_iff]
    constructor
    · rintro ⟨bs, hbs, rfl⟩
      exact ⟨bs, Base64.decode?_iff.mp hbs, rfl⟩
    · rintro ⟨bs, hbs, rfl⟩
      exact ⟨bs, Base64.decode?_iff.mpr hbs, rfl⟩
  · rw [parse?_withText, parse?_withText, Option.bind_some, Option.bind_some, ofSource?_withText,
      ofSource?_withText, Base64.decode?_append]

end ChainKit.RawAbi
