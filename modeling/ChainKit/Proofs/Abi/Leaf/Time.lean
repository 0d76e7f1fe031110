import ChainKit.Proofs.Abi.Leaf.Wire
import ChainKit.Proofs.Time.Spelling

namespace ChainKit.Abi

namespace Leaf
set_option autoImplicit true
open Wire

theorem length_signedBytes (width : Nat) (i : Int) : (signedBytes width i).length = width :=
  Bytes.length_ofNatLE ..

/-- The bytes of a time without a text are refused at their own position. -/
theorem readTimePoint_eq_error {t : TimePoint} (h : t.isRepresentable = false) (p : Nat)
    (rest : Bytes) : readTimePoint ⟨p, signedBytes 8 t.micros.toInt ++ rest⟩ =
      .error ⟨p, .timePoint t.micros.toInt⟩ ⟨p + 8, rest⟩ := by
  obtain ⟨hlow, hhigh⟩ := int64_bounds t.micros
  have hread := reads_signed hlow hhigh rest p
  rw [length_signedBytes] at hread
  have hposition (f : Nat → Read TimePoint) (r : Reader) :
      (Read.position >>= f) r = f r.position r := rfl
  rw [readTimePoint, hposition, bind_ok hread]
  simp only [ofMicros_toInt, h]
  rfl

end Leaf

namespace Builtin
set_option autoImplicit true
open Wire

/-- A text that is read as a time is encoded in eight bytes. The time has a text, and the bytes
decode to a text of the same instant, unless the text was a moment in the second behind the
calendar: then the bytes are refused. -/
theorem decode_encode_time (strict : Bool) (h : TimePoint.parse s = .ok t) :
    (t.isRepresentable ↔ ¬TimePoint.IsPastLast s) ∧
      ∃ bs, encode .timePoint (.str s) = .ok bs ∧ bs.length = 8 ∧
        (t.isRepresentable → ∃ text,
          decode .timePoint strict (.ofBytes bs) = .ok (.str text) ⟨8, []⟩ ∧
            TimePoint.parse text = .ok t) ∧
        (t.isRepresentable = false → decode .timePoint strict (.ofBytes bs) =
          .error ⟨0, .timePoint t.micros.toInt⟩ ⟨8, []⟩) := by
  have hparse : Leaf.parse .timePoint (.str s) = .ok (.timePoint t) :=
    Result.map_eq_ok.mpr ⟨t, Leaf.parseText_str h, rfl⟩
  have hencode : encode .timePoint (.str s) = .ok (Leaf.signedBytes 8 t.micros.toInt) :=
    Result.map_eq_ok.mpr ⟨.timePoint t, hparse, rfl⟩
  have hlength := Leaf.length_signedBytes 8 t.micros.toInt
  refine ⟨TimePoint.isRepresentable_iff_of_parse h, _, hencode, hlength, ?_, ?_⟩
  · intro hrepr
    have hread := (Leaf.reads_timePoint hrepr []).map (f := Leaf.timePoint) 0
    rw [List.append_nil, Nat.zero_add, hlength] at hread
    exact ⟨t.text?.getD "", bind_ok hread, TimePoint.parse_text hrepr⟩
  · intro hrepr
    have hread := Leaf.readTimePoint_eq_error hrepr 0 []
    rw [List.append_nil, Nat.zero_add] at hread
    exact bind_error (bind_error hread)

def newYear : String := "2019-12-31T23:59:60.5Z"

theorem decode_encode_time_newYear :
    TimePoint.parse newYear = .ok ⟨1577836800500000⟩ ∧ ¬TimePoint.IsPastLast newYear ∧
      ∃ bs text, encode .timePoint (.str newYear) = .ok bs ∧ bs.length = 8 ∧
        decode .timePoint true (.ofBytes bs) = .ok (.str text) ⟨8, []⟩ ∧
        TimePoint.parse text = .ok ⟨1577836800500000⟩ := by
  have hparse : TimePoint.parse newYear = .ok ⟨1577836800500000⟩ := rfl
  have hrepr : TimePoint.isRepresentable ⟨1577836800500000⟩ := by decide
  obtain ⟨hlast, bs, hencode, hlength, hdecode, -⟩ := decode_encode_time true hparse
  obtain ⟨text, htext, hsame⟩ := hdecode hrepr
  exact ⟨hparse, hlast.mp hrepr, bs, text, hencode, hlength, htext, hsame⟩

/-- The second behind the calendar is read and encoded, but it has no text, and its bytes are
refused. -/
theorem not_decode_encode_pastLast :
    TimePoint.parse "+262142-12-31T23:59:60" = .ok ⟨8210266876800000000⟩ ∧
      TimePoint.text? ⟨8210266876800000000⟩ = none ∧
      encode .timePoint (.str "+262142-12-31T23:59:60") =
        .ok [0, 224, 209, 126, 57, 186, 240, 113] ∧
      decode .timePoint true (.ofBytes [0, 224, 209, 126, 57, 186, 240, 113]) =
        .error ⟨0, .timePoint 8210266876800000000⟩ ⟨8, []⟩ :=
  ⟨rfl, rfl, rfl, rfl⟩

end Builtin
end ChainKit.Abi
