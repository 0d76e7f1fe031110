import ChainKit.Abi.Leaf
import ChainKit.Proofs.Wire.Composed

namespace ChainKit.Abi.Leaf
open Wire

variable {P : Nat → Prop}

theorem isComposed_signed (width : Nat) : IsComposed P (readSigned width) :=
  (Read.isComposed_nat width).map _

theorem isComposed_word64 : IsComposed P readWord64 := (Read.isComposed_nat 8).map _

theorem isComposed_word32 : IsComposed P readWord32 := (Read.isComposed_nat 4).map _

theorem isComposed_name : IsComposed P readName := isComposed_word64.map _

theorem isComposed_bool (strict : Bool) : IsComposed P (readBool strict) := by
  apply IsComposed.position
  intro offset hoffset
  apply Read.isComposed_byte.bind
  intro b
  apply IsComposed.ite
  · exact .pure false
  · exact .ite (.pure true) (.throw hoffset)

theorem isComposed_timePoint : IsComposed P readTimePoint := by
  apply IsComposed.position
  intro offset hoffset
  apply (isComposed_signed 8).bind
  intro micros
  exact .ite (.pure _) (.throw hoffset)

theorem isComposed_string : IsComposed P readString := by
  apply IsComposed.position
  intro offset hoffset
  apply Read.isComposed_lengthPrefixed.bind
  intro bs
  cases Utf8.decode? bs with
  | some s => exact .pure s
  | none => exact .throw hoffset

theorem isComposed_asset : IsComposed P readAsset := by
  apply IsComposed.position
  intro offset hoffset
  apply (isComposed_signed 8).bind
  intro amount
  apply isComposed_word64.bind
  intro symbol
  exact .ite (.pure _) (.throw hoffset)

theorem isComposed_keyType : IsComposed P readKeyType := by
  apply IsComposed.position
  intro offset hoffset
  apply Read.isComposed_byte.bind
  intro tag
  cases KeyType.ofTag tag with
  | ok type => exact .pure type
  | error e => exact .throw hoffset

theorem isComposed_keyed {n : Nat} (f : KeyType → Blob n → Leaf) :
    IsComposed P (do return f (← readKeyType) (← Read.blob n)) := by
  apply isComposed_keyType.bind
  intro type
  exact (IsComposed.blob n).map _

theorem isComposed_read (strict : Bool) (b : Builtin) : IsComposed P (read strict b) := by
  cases b with
  | bool => exact (isComposed_bool strict).map _
  | int w => exact (isComposed_signed w.bytes).map _
  | uint w => exact (Read.isComposed_nat w.bytes).map _
  | varint => exact Read.isComposed_varint.map _
  | varuint => exact Read.isComposed_varuint.map _
  | float32 => exact isComposed_word32.map _
  | float64 => exact isComposed_word64.map _
  | float128 => exact (IsComposed.blob 16).map _
  | timePoint => exact isComposed_timePoint.map _
  | timePointSec => exact isComposed_word32.map _
  | blockTimestamp => exact isComposed_word32.map _
  | name => exact isComposed_name.map _
  | bytes => exact Read.isComposed_lengthPrefixed.map _
  | string => exact isComposed_string.map _
  | checksum size => exact (IsComposed.blob size.bytes).map _
  | publicKey => exact isComposed_keyed fun type data => publicKey ⟨type, data⟩
  | privateKey => exact isComposed_keyed fun type data => privateKey ⟨type, data⟩
  | signature => exact isComposed_keyed fun type data => signature ⟨type, data⟩
  | symbol => exact isComposed_word64.map _
  | symbolCode => exact isComposed_word64.map _
  | asset => exact isComposed_asset.map _
  | extendedAsset =>
    apply isComposed_asset.bind
    intro quantity
    exact isComposed_name.map _

end ChainKit.Abi.Leaf
