import ChainKit.Proofs.Abi.Leaf.Json
import ChainKit.Proofs.Wire.Varint

namespace ChainKit.Abi.Leaf
set_option autoImplicit true
open Wire

theorem natCast_pow (width : Nat) : ((256 ^ width : Nat) : Int) = 256 ^ width := by simp

theorem emod_of_signed {m : Nat} (hlow : -(m : Int) ≤ 2 * i) (hhigh : 2 * i < m) :
    i % m = if 0 ≤ i then i else i + m := by
  split
  · exact Int.emod_eq_of_lt ‹_› (by omega)
  · rw [← Int.add_emod_right]
    exact Int.emod_eq_of_lt (by omega) (by omega)

theorem signedOfNat_emod (hlow : -(256 ^ width) ≤ 2 * i) (hhigh : 2 * i < 256 ^ width) :
    signedOfNat width (i % 256 ^ width).toNat = i := by
  rw [← natCast_pow] at hlow hhigh ⊢
  rw [emod_of_signed hlow hhigh, signedOfNat, ← natCast_pow]
  generalize 256 ^ width = m at hlow hhigh
  split <;> split <;> omega

theorem signedBytes_signedOfNat (h : n < 256 ^ width) :
    signedBytes width (signedOfNat width n) = Bytes.ofNatLE width n := by
  have hmod : (signedOfNat width n % 256 ^ width).toNat = n := by
    rw [signedOfNat, ← natCast_pow]
    split
    · rw [Int.emod_eq_of_lt (by omega) (by omega), Int.toNat_natCast]
    · rw [← Int.add_emod_right, Int.sub_add_cancel, Int.emod_eq_of_lt (by omega) (by omega),
        Int.toNat_natCast]
  rw [signedBytes, hmod]

theorem reads_signed (hlow : -(256 ^ width) ≤ 2 * i) (hhigh : 2 * i < 256 ^ width) (rest : Bytes) :
    Reads (readSigned width) (signedBytes width i) i rest := by
  have hpos : (0 : Int) < 256 ^ width := Int.pow_pos (by decide)
  have hlt : (i % 256 ^ width).toNat < 256 ^ width := by
    have := Int.emod_lt_of_pos i hpos
    have := Int.emod_nonneg i (Int.ne_of_gt hpos)
    have := natCast_pow width
    omega
  have hr := (Read.reads_ofNatLE hlt rest).map (f := signedOfNat width)
  rwa [signedOfNat_emod hlow hhigh] at hr

theorem takes_signed (width : Nat) : Takes (readSigned width) fun used i =>
    used = signedBytes width i ∧ -(256 ^ width) ≤ 2 * i ∧ 2 * i < 256 ^ width := by
  refine (Read.takes_nat width).map ?_
  rintro used n ⟨rfl, hn⟩
  refine ⟨(signedBytes_signedOfNat hn).symm, ?_⟩
  rw [signedOfNat, ← natCast_pow]
  split <;> omega

theorem fitsSigned_width {w : Width} :
    fitsSigned w.bits i ↔ -(256 ^ w.bytes) ≤ 2 * i ∧ 2 * i < 256 ^ w.bytes := by
  rw [fitsSigned_iff]
  cases w <;> simp only [Width.bits, Width.bytes] <;> omega

theorem fitsSigned_word : fitsSigned 32 i ↔ Wire.fold i < 2 ^ 32 := by
  rw [fitsSigned_iff, fold_lt_iff]

theorem reads_word64 (w : UInt64) (rest : Bytes) :
    Reads readWord64 (Bytes.ofNatLE 8 w.toNat) w rest := by
  have hn : Reads (Read.nat 8) (Bytes.ofNatLE 8 w.toNat) w.toNat rest :=
    Read.reads_ofNatLE w.toNat_lt rest
  have hr := hn.map (f := UInt64.ofNat)
  rwa [UInt64.ofNat_toNat] at hr

theorem takes_word64 : Takes readWord64 fun used w => used = Bytes.ofNatLE 8 w.toNat := by
  refine (Read.takes_nat 8).map ?_
  rintro used n ⟨rfl, hn⟩
  have hn : n < 2 ^ 64 := Nat.lt_of_lt_of_eq hn (by decide)
  rw [UInt64.toNat_ofNat', Nat.mod_eq_of_lt hn]

theorem reads_word32 (w : UInt32) (rest : Bytes) :
    Reads readWord32 (Bytes.ofNatLE 4 w.toNat) w rest := by
  have hn : Reads (Read.nat 4) (Bytes.ofNatLE 4 w.toNat) w.toNat rest :=
    Read.reads_ofNatLE w.toNat_lt rest
  have hr := hn.map (f := UInt32.ofNat)
  rwa [UInt32.ofNat_toNat] at hr

theorem takes_word32 : Takes readWord32 fun used w => used = Bytes.ofNatLE 4 w.toNat := by
  refine (Read.takes_nat 4).map ?_
  rintro used n ⟨rfl, hn⟩
  have hn : n < 2 ^ 32 := Nat.lt_of_lt_of_eq hn (by decide)
  rw [UInt32.toNat_ofNat', Nat.mod_eq_of_lt hn]

theorem reads_name (n : Name) (rest : Bytes) : Reads readName n.toBytes n rest :=
  (reads_word64 n.value rest).map

theorem takes_name : Takes readName fun used n => used = n.toBytes :=
  takes_word64.map fun _ _ h => h

theorem int64_bounds (x : Int64) : -(256 ^ 8) ≤ 2 * x.toInt ∧ 2 * x.toInt < 256 ^ 8 := by
  have := x.le_toInt
  have := x.toInt_lt
  omega

theorem signedBytes_toInt (x : Int64) :
    signedBytes 8 x.toInt = Bytes.ofNatLE 8 x.toUInt64.toNat := by
  have hlt := x.toUInt64.toNat_lt
  have hb : x.toInt = Int.bmod x.toUInt64.toNat (2 ^ 64) := BitVec.toInt_eq_toNat_bmod x.toBitVec
  have hmod : x.toInt % 256 ^ 8 = x.toUInt64.toNat := by
    rw [hb]
    exact Int.bmod_emod.trans (Int.emod_eq_of_lt (by omega) (by omega))
  rw [signedBytes, hmod, Int.toNat_natCast]

theorem reads_bool (strict b : Bool) (rest : Bytes) :
    Reads (readBool strict) [if b then 1 else 0] b rest := by
  refine Reads.position fun offset => Reads.check (Read.reads_byte _ _) ?_
  cases b with
  | false => exact Reads.pure _ _
  | true => exact Reads.pure _ _

theorem takes_bool : Takes (readBool true) fun used b => used = [if b then 1 else 0] := by
  refine Takes.position fun offset => Read.takes_byte.bind ?_
  rintro used b rfl
  split
  · rename_i hb
    exact Takes.pure (by rw [hb]; rfl)
  · split
    · rename_i hb
      have hb : b = 1 := hb.resolve_right nofun
      exact Takes.pure (by rw [hb]; rfl)
    · exact Takes.throw _

theorem ofMicros_toInt (t : TimePoint) : TimePoint.ofMicros t.micros.toInt = t := by
  rw [TimePoint.ofMicros, Int64.ofInt_toInt]

theorem reads_timePoint {t : TimePoint} (h : t.isRepresentable) (rest : Bytes) :
    Reads readTimePoint (signedBytes 8 t.micros.toInt) t rest := by
  have hb := int64_bounds t.micros
  refine Reads.position fun offset => Reads.check (reads_signed hb.1 hb.2 _) ?_
  simp only [ofMicros_toInt, h, if_true]
  exact Reads.pure _ _

theorem takes_timePoint : Takes readTimePoint fun used t =>
    used = signedBytes 8 t.micros.toInt ∧ t.isRepresentable := by
  refine Takes.position fun offset => (takes_signed 8).bind ?_
  rintro used i ⟨rfl, hlow, hhigh⟩
  have hi : (TimePoint.ofMicros i).micros.toInt = i :=
    Int64.toInt_ofInt_of_le (by omega) (by omega)
  simp only
  split
  · refine Takes.pure ⟨?_, ‹_›⟩
    rw [hi, List.append_nil]
  · exact Takes.throw _

theorem reads_string (h : (Utf8.encode s).length < 2 ^ 32) (rest : Bytes) :
    Reads readString (lengthPrefixed (Utf8.encode s)) s rest := by
  refine Reads.position fun offset => Reads.check (Read.reads_lengthPrefixed h _) ?_
  rw [Utf8.decode?_encode]
  exact Reads.pure _ _

theorem takes_string : Takes readString fun used s =>
    ∃ length, used = length ++ Utf8.encode s ∧ Spells length (Utf8.encode s).length := by
  refine Takes.position fun offset => Read.takes_lengthPrefixed.bind ?_
  rintro used bs ⟨length, rfl, hlen⟩
  split
  · rename_i s hs
    have he := Utf8.encode_of_decode? hs
    refine Takes.pure ⟨length, ?_, he ▸ hlen⟩
    rw [he, List.append_nil]
  · exact Takes.throw _

theorem reads_asset {a : Asset} (h : a.symbol.precision ≤ Token.maxPrecision) (rest : Bytes) :
    Reads readAsset a.toBytes a rest := by
  have hb := int64_bounds a.amount
  refine Reads.position fun offset => ?_
  rw [Asset.toBytes, ← signedBytes_toInt]
  refine Reads.bind (reads_signed hb.1 hb.2 _) ?_
  refine Reads.check (reads_word64 _ _) ?_
  simp only [if_pos h, Int64.ofInt_toInt]
  exact Reads.pure _ _

theorem takes_asset : Takes readAsset fun used a => used = a.toBytes := by
  refine Takes.position fun offset => (takes_signed 8).bind ?_
  rintro used i ⟨rfl, hlow, hhigh⟩
  refine takes_word64.bind ?_
  rintro used w rfl
  have hi : (Int64.ofInt i).toInt = i := Int64.toInt_ofInt_of_le (by omega) (by omega)
  simp only
  split
  · refine Takes.pure ?_
    rw [Asset.toBytes, ← signedBytes_toInt (Int64.ofInt i), hi, List.append_nil]
  · exact Takes.throw _

theorem reads_keyType (k : KeyType) (rest : Bytes) : Reads readKeyType [k.tag] k rest := by
  refine Reads.position fun offset => Reads.check (Read.reads_byte _ _) ?_
  cases k <;> exact Reads.pure _ _

theorem tag_of_ofTag (h : KeyType.ofTag b = .ok k) : k.tag = b := by
  rw [KeyType.ofTag] at h
  split at h
  · cases h
    rename_i hb
    exact hb.symm
  · split at h
    · cases h
      rename_i hb
      exact hb.symm
    · split at h <;> cases h

theorem takes_keyType : Takes readKeyType fun used k => used = [k.tag] := by
  refine Takes.position fun offset => Read.takes_byte.bind ?_
  rintro used b rfl
  split
  · rename_i k hk
    exact Takes.pure (by rw [tag_of_ofTag hk]; rfl)
  · exact Takes.throw _

theorem reads_toBytes {l : Leaf} (strict : Bool) (h : l.IsValid) (hr : l.IsRepresentable)
    (rest : Bytes) : Reads (read strict l.type) l.toBytes l rest := by
  cases l with
  | bool b => exact (reads_bool strict b rest).map
  | int w i =>
    have hi := fitsSigned_width.mp h
    exact (reads_signed hi.1 hi.2 rest).map
  | uint w n =>
    have hn : n < 256 ^ w.bytes := by cases w <;> exact h
    exact (Read.reads_ofNatLE hn rest).map
  | varint i => exact (Read.reads_varint (fitsSigned_word.mp h) rest).map
  | varuint n => exact (Read.reads_varuint h rest).map
  | float32 bits => exact (reads_word32 bits rest).map
  | float64 x => exact (reads_word64 x.bits rest).map
  | float128 b => exact (Read.reads_blob b rest).map
  | timePoint t => exact (reads_timePoint hr rest).map
  | timePointSec t => exact (reads_word32 t.secs rest).map
  | blockTimestamp t => exact (reads_word32 t.slot rest).map
  | name n => exact (reads_name n rest).map
  | bytes bs => exact (Read.reads_lengthPrefixed h rest).map
  | string s => exact (reads_string h rest).map
  | checksum size c => exact (Read.reads_blob c rest).map
  | publicKey k => exact (reads_keyType k.type _).bind (Read.reads_blob k.data rest).map
  | privateKey k => exact (reads_keyType k.type _).bind (Read.reads_blob k.data rest).map
  | signature s => exact (reads_keyType s.type _).bind (Read.reads_blob s.data rest).map
  | symbol s => exact (reads_word64 s.value rest).map
  | symbolCode c => exact (reads_word64 c.value rest).map
  | asset a => exact (reads_asset h.1 rest).map
  | extendedAsset a => exact (reads_asset h.1 _).bind (reads_name a.contract rest).map

theorem isRepresentable_of_read {l : Leaf}
    (h : read strict l.type ⟨p, l.toBytes ++ rest⟩ = .ok l' s') : l.IsRepresentable := by
  cases l with
  | timePoint t =>
    have hb := int64_bounds t.micros
    obtain ⟨t', s₁, ht, -⟩ := bind_eq_ok h
    obtain ⟨offset, s₂, hposition, ht⟩ := bind_eq_ok ht
    cases hposition
    obtain ⟨i, s₃, hi, ht⟩ := bind_eq_ok ht
    obtain ⟨rfl, -⟩ := (reads_signed hb.1 hb.2 rest).eq_of_ok hi
    simp only [ofMicros_toInt] at ht
    split at ht
    · assumption
    · cases ht
  | _ => trivial

/-- Bytes spell a value if they are its wire form, but for the length of the variable-length integer
that some values are or begin with. -/
def IsSpelledBy : Leaf → Bytes → Prop
  | varint i, used => Spells used (fold i)
  | varuint n, used => Spells used n
  | bytes bs, used => ∃ length, used = length ++ bs ∧ Spells length bs.length
  | string s, used =>
    ∃ length, used = length ++ Utf8.encode s ∧ Spells length (Utf8.encode s).length
  | l, used => used = l.toBytes

theorem IsSpelledBy.eq_or_shorter {l : Leaf} (h : l.IsSpelledBy used) :
    l.toBytes = used ∨ l.toBytes.length < used.length := by
  cases l with
  | varint i => exact Spells.eq_or_shorter h
  | varuint n => exact Spells.eq_or_shorter h
  | bytes bs =>
    obtain ⟨length, rfl, hlength⟩ := h
    exact eq_or_shorter_append hlength.eq_or_shorter (.inl rfl)
  | string s =>
    obtain ⟨length, rfl, hlength⟩ := h
    exact eq_or_shorter_append hlength.eq_or_shorter (.inl rfl)
  | _ => exact .inl (Eq.symm h)

structure IsRead (b : Builtin) (used : Bytes) (l : Leaf) : Prop where
  type_eq : l.type = b
  representable : l.IsRepresentable
  valid : ¬b.IsToken → l.IsValid
  spelled : l.IsSpelledBy used

theorem takes_read (b : Builtin) : Takes (read true b) (IsRead b) := by
  cases b with
  | bool => exact takes_bool.map fun used b h => ⟨rfl, trivial, fun _ => trivial, h⟩
  | int w =>
    refine (takes_signed w.bytes).map ?_
    rintro used i ⟨rfl, hi⟩
    have hv : fitsSigned w.bits i := fitsSigned_width.mpr hi
    exact ⟨rfl, trivial, fun _ => hv, rfl⟩
  | uint w =>
    refine (Read.takes_nat w.bytes).map ?_
    rintro used n ⟨rfl, hn⟩
    have hv : (uint w n).IsValid := by cases w <;> exact hn
    exact ⟨rfl, trivial, fun _ => hv, rfl⟩
  | varint =>
    refine Read.takes_varint.map fun used i h => ?_
    exact ⟨rfl, trivial, fun _ => fitsSigned_word.mpr h.lt, h⟩
  | varuint =>
    refine Read.takes_varuint.map fun used n h => ?_
    exact ⟨rfl, trivial, fun _ => h.lt, h⟩
  | float32 => exact takes_word32.map fun used w h => ⟨rfl, trivial, fun _ => trivial, h⟩
  | float64 => exact takes_word64.map fun used w h => ⟨rfl, trivial, fun _ => trivial, h⟩
  | float128 => exact (Read.takes_blob 16).map fun used b h => ⟨rfl, trivial, fun _ => trivial, h⟩
  | timePoint => exact takes_timePoint.map fun used t h => ⟨rfl, h.2, fun _ => trivial, h.1⟩
  | timePointSec => exact takes_word32.map fun used w h => ⟨rfl, trivial, fun _ => trivial, h⟩
  | blockTimestamp => exact takes_word32.map fun used w h => ⟨rfl, trivial, fun _ => trivial, h⟩
  | name => exact takes_name.map fun used n h => ⟨rfl, trivial, fun _ => trivial, h⟩
  | bytes =>
    refine Read.takes_lengthPrefixed.map ?_
    rintro used bs ⟨length, rfl, hlen⟩
    exact ⟨rfl, trivial, fun _ => hlen.lt, length, rfl, hlen⟩
  | string =>
    refine takes_string.map ?_
    rintro used s ⟨length, rfl, hlen⟩
    exact ⟨rfl, trivial, fun _ => hlen.lt, length, rfl, hlen⟩
  | checksum size =>
    exact (Read.takes_blob size.bytes).map fun used b h => ⟨rfl, trivial, fun _ => trivial, h⟩
  | publicKey =>
    refine takes_keyType.bind ?_
    rintro used k rfl
    exact (Read.takes_blob 33).map fun used b h => ⟨rfl, trivial, fun _ => trivial, h ▸ rfl⟩
  | privateKey =>
    refine takes_keyType.bind ?_
    rintro used k rfl
    exact (Read.takes_blob 32).map fun used b h => ⟨rfl, trivial, fun _ => trivial, h ▸ rfl⟩
  | signature =>
    refine takes_keyType.bind ?_
    rintro used k rfl
    exact (Read.takes_blob 65).map fun used b h => ⟨rfl, trivial, fun _ => trivial, h ▸ rfl⟩
  | symbol =>
    refine takes_word64.map fun used w h => ⟨rfl, trivial, fun hb => ?_, h⟩
    exact absurd (.inl rfl) hb
  | symbolCode =>
    refine takes_word64.map fun used w h => ⟨rfl, trivial, fun hb => ?_, h⟩
    exact absurd (.inr (.inl rfl)) hb
  | asset =>
    refine takes_asset.map fun used a h => ⟨rfl, trivial, fun hb => ?_, h⟩
    exact absurd (.inr (.inr (.inl rfl))) hb
  | extendedAsset =>
    refine takes_asset.bind ?_
    rintro used a rfl
    refine takes_name.map fun used n h => ⟨rfl, trivial, fun hb => ?_, h ▸ rfl⟩
    exact absurd (.inr (.inr (.inr rfl))) hb

/-- Among values of one type, the wire form tells a value from all others whatever follows it. -/
theorem toBytes_append_inj {l l' : Leaf} (ht : l.type = l'.type) (h : l.IsValid) (h' : l'.IsValid)
    (he : l.toBytes ++ rest = l'.toBytes ++ rest') : l = l' ∧ rest = rest' := by
  by_cases htime : l.type = .timePoint
  · cases l with
    | timePoint t =>
      cases l' with
      | timePoint t' =>
        have hb := int64_bounds t.micros
        have hb' := int64_bounds t'.micros
        obtain ⟨hi, hrest⟩ :=
          (reads_signed hb.1 hb.2 rest).unique (reads_signed hb'.1 hb'.2 rest') he
        have hm : t = t' := congrArg TimePoint.mk (Int64.toInt_inj.mp hi)
        exact ⟨congrArg Leaf.timePoint hm, hrest⟩
      | _ => cases ht
    | _ => cases htime
  · have hrepr (l : Leaf) (hl : l.type ≠ .timePoint) : l.IsRepresentable := by
      cases l with
      | timePoint t => exact absurd rfl hl
      | _ => trivial
    have hl := reads_toBytes true h (hrepr l htime) rest
    have hl' := reads_toBytes true h' (hrepr l' (ht ▸ htime)) rest'
    rw [← ht] at hl'
    exact hl.unique hl' he

end ChainKit.Abi.Leaf
