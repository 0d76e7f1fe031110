import ChainKit.Proofs.Result
import ChainKit.Proofs.Time.Text

namespace ChainKit

namespace TimeText
set_option autoImplicit true

def AreBlanks (bs : List Char) : Prop := ∀ c ∈ bs, Text.isBlank c

structure AreDigits (ds : List Char) : Prop where
  ne_nil : ds ≠ []
  isDigit : ∀ c ∈ ds, c.isDigit

/-- Whether characters are a year: up to four digits, or a sign and any number of digits. -/
inductive IsYear : Int → List Char → Prop where
  | plain (hb : AreBlanks bs) (hd : AreDigits ds) (hlen : ds.length ≤ 4) :
      IsYear (Decimal.natOfDigits ds) (bs ++ ds)
  | minus (hb : AreBlanks bs) (hd : AreDigits ds) :
      IsYear (-(Decimal.natOfDigits ds : Int)) (bs ++ '-' :: ds)
  | plus (hb : AreBlanks bs) (hd : AreDigits ds) :
      IsYear (Decimal.natOfDigits ds) (bs ++ '+' :: ds)

/-- Whether characters are a number of one or two digits. -/
inductive IsField : Nat → List Char → Prop where
  | digits (hb : AreBlanks bs) (hd : AreDigits ds) (hlen : ds.length ≤ 2) :
      IsField (Decimal.natOfDigits ds) (bs ++ ds)

/-- Whether characters are a fraction of a second, cut to whole microseconds. -/
inductive IsFraction : Nat → List Char → Prop where
  | none : IsFraction 0 []
  | digits (hd : AreDigits ds) :
      IsFraction (Decimal.natOfDigits ds * 10 ^ 6 / 10 ^ ds.length) ('.' :: ds)

theorem exists_blanks (cs : List Char) : ∃ bs, AreBlanks bs ∧ cs = bs ++ Text.trimStart cs := by
  exists cs.takeWhile Text.isBlank
  constructor
  · intro c hc
    exact List.all_eq_true.mp List.all_takeWhile c hc
  · exact List.takeWhile_append_dropWhile.symm

theorem AreBlanks.trimStart_append (hb : AreBlanks bs) (hd : AreDigits ds) :
    Text.trimStart (bs ++ (ds ++ rest)) = ds ++ rest := by
  rw [Text.trimStart, List.dropWhile_append_of_pos hb]
  exact trimStart_digits hd.ne_nil hd.isDigit

theorem AreBlanks.trimStart_cons (hb : AreBlanks bs) (hc : Text.isBlank c = false) :
    Text.trimStart (bs ++ c :: cs) = c :: cs := by
  rw [Text.trimStart, List.dropWhile_append_of_pos hb]
  exact List.dropWhile_cons_of_neg (by simp [hc])

theorem stopsDigits_nil : StopsDigits [] := nofun

theorem stopsDigits_dropWhile (cs : List Char) : StopsDigits (cs.dropWhile Char.isDigit) := by
  intro c hc
  have h := List.head?_dropWhile_not Char.isDigit cs
  rw [hc] at h
  exact h

theorem exists_digits (h : number? limit cs = some (n, rest)) : ∃ ds, cs = ds ++ rest ∧
    AreDigits ds ∧ ds.length ≤ limit ∧ n = Decimal.natOfDigits ds := by
  simp only [number?] at h
  split at h
  · cases h
  · rename_i hne
    cases h
    have hfront : (cs.take limit).takeWhile Char.isDigit <+: cs.take limit :=
      List.takeWhile_prefix _
    have hcs := List.prefix_iff_eq_append.mp (hfront.trans (List.take_prefix limit cs))
    have hlen := Nat.le_trans hfront.length_le (List.length_take_le limit cs)
    exact ⟨_, hcs.symm, ⟨hne, List.all_eq_true.mp List.all_takeWhile⟩, hlen, rfl⟩

theorem exists_field (h : field? low high cs = some (n, rest)) :
    ∃ fs, cs = fs ++ rest ∧ IsField n fs ∧ low ≤ n ∧ n ≤ high := by
  obtain ⟨hread, hbounds⟩ := Option.filter_eq_some_iff.mp h
  obtain ⟨bs, hb, hcs⟩ := exists_blanks cs
  obtain ⟨ds, hds, hd, hlen, rfl⟩ := exists_digits hread
  rw [hds, ← List.append_assoc] at hcs
  exact ⟨bs ++ ds, hcs, .digits hb hd hlen, of_decide_eq_true hbounds⟩

theorem IsField.field?_append (h : IsField n fs) (hlow : low ≤ n) (hhigh : n ≤ high)
    (hrest : StopsDigits rest) : field? low high (fs ++ rest) = some (n, rest) := by
  cases h with
  | @digits bs ds hb hd hlen =>
    rw [field?, List.append_assoc, hb.trimStart_append hd,
      number?_append hd.ne_nil hd.isDigit hlen (.inr hrest)]
    simp [hlow, hhigh]

theorem exists_year (h : year? cs = some (year, rest)) :
    ∃ ys, cs = ys ++ rest ∧ IsYear year ys := by
  obtain ⟨bs, hb, hcs⟩ := exists_blanks cs
  rw [year?] at h
  split at h
  · rename_i cs' hsign
    obtain ⟨⟨n, rest'⟩, hread, he⟩ := Option.map_eq_some_iff.mp h
    cases he
    obtain ⟨ds, rfl, hd, -, rfl⟩ := exists_digits hread
    rw [hsign, ← List.cons_append, ← List.append_assoc] at hcs
    exact ⟨_, hcs, .minus hb hd⟩
  · rename_i cs' hsign
    obtain ⟨⟨n, rest'⟩, hread, he⟩ := Option.map_eq_some_iff.mp h
    cases he
    obtain ⟨ds, rfl, hd, -, rfl⟩ := exists_digits hread
    rw [hsign, ← List.cons_append, ← List.append_assoc] at hcs
    exact ⟨_, hcs, .plus hb hd⟩
  · obtain ⟨⟨n, rest'⟩, hread, he⟩ := Option.map_eq_some_iff.mp h
    cases he
    obtain ⟨ds, hds, hd, hlen, rfl⟩ := exists_digits hread
    rw [hds, ← List.append_assoc] at hcs
    exact ⟨_, hcs, .plain hb hd hlen⟩

theorem number?_sign (hd : AreDigits ds) (hrest : StopsDigits rest) :
    number? (ds ++ rest).length (ds ++ rest) = some (Decimal.natOfDigits ds, rest) :=
  number?_append hd.ne_nil hd.isDigit (by simp) (.inr hrest)

theorem IsYear.year?_append (h : IsYear year ys) (hrest : StopsDigits rest) :
    year? (ys ++ rest) = some (year, rest) := by
  cases h with
  | @plain bs ds hb hd hlen =>
    rw [year?, List.append_assoc, hb.trimStart_append hd]
    have hread := number?_append hd.ne_nil hd.isDigit hlen (.inr hrest)
    obtain ⟨d, ds, rfl⟩ := List.exists_cons_of_ne_nil hd.ne_nil
    have hdigit := hd.isDigit d List.mem_cons_self
    rw [List.cons_append] at hread ⊢
    split
    · rename_i he
      cases he
      cases hdigit
    · rename_i he
      cases he
      cases hdigit
    · rw [hread]
      rfl
  | @minus bs ds hb hd =>
    rw [year?, List.append_assoc, List.cons_append, hb.trimStart_cons (by decide)]
    simp only [number?_sign hd hrest, Option.map_some]
  | @plus bs ds hb hd =>
    rw [year?, List.append_assoc, List.cons_append, hb.trimStart_cons (by decide)]
    simp only [number?_sign hd hrest, Option.map_some]

theorem nanos_div (hd : ∀ c ∈ ds, c.isDigit) :
    Decimal.natOfDigits (ds.take 9) * 10 ^ (9 - (ds.take 9).length) / 1000 =
      Decimal.natOfDigits ds * 10 ^ 6 / 10 ^ ds.length := by
  rcases Nat.lt_or_ge 9 ds.length with hlong | hshort
  · have hfront : (ds.take 9).length = 9 := List.length_take_of_le (Nat.le_of_lt hlong)
    have hrest : Decimal.natOfDigits (ds.drop 9) < 10 ^ (ds.drop 9).length :=
      Decimal.natOfDigits_lt fun c hc => hd c (List.mem_of_mem_drop hc)
    have hlength : ds.length = 6 + ((ds.drop 9).length + 3) := by
      rw [List.length_drop]
      omega
    have hvalue := Decimal.natOfDigits_append (ds.take 9) (ds.drop 9)
    rw [List.take_append_drop] at hvalue
    rw [hfront, hvalue, hlength, Nat.pow_add 10 6, Nat.mul_comm _ (10 ^ 6),
      Nat.mul_div_mul_left _ _ (by decide), Nat.pow_add, ← Nat.div_div_eq_div_mul,
      Nat.mul_comm _ (10 ^ (ds.drop 9).length), Nat.mul_add_div (Nat.pow_pos (by decide)),
      Nat.div_eq_of_lt hrest]
    omega
  · have hpow : 10 ^ (9 - ds.length) * 10 ^ ds.length = 10 ^ 6 * 1000 := by
      rw [← Nat.pow_add, Nat.sub_add_cancel hshort]
    rw [List.take_of_length_le hshort,
      ← Nat.mul_div_mul_right _ 1000 (Nat.pow_pos (n := ds.length) (show 0 < 10 by decide)),
      Nat.mul_assoc, hpow, ← Nat.mul_assoc, Nat.mul_comm 1000,
      Nat.mul_div_mul_right _ _ (by decide)]

theorem fraction?_digits (hd : AreDigits ds) (hrest : StopsDigits rest) :
    ∃ nanos, fraction? ('.' :: (ds ++ rest)) = some (nanos, rest) ∧
      nanos / 1000 = Decimal.natOfDigits ds * 10 ^ 6 / 10 ^ ds.length := by
  have hfront : ((ds ++ rest).take 9).takeWhile Char.isDigit = ds.take 9 := by
    rw [← List.take_takeWhile, takeWhile_digits hd.isDigit hrest]
  have hbehind : ((ds ++ rest).drop (ds.take 9).length).dropWhile Char.isDigit = rest := by
    have hle : (ds.take 9).length ≤ ds.length := List.length_take_le' 9 ds
    have hskipped : ∀ c ∈ ds.drop (ds.take 9).length, c.isDigit := fun c hc =>
      hd.isDigit c (List.mem_of_mem_drop hc)
    rw [List.drop_append_of_le_length hle, List.dropWhile_append_of_pos hskipped]
    cases rest with
    | nil => rfl
    | cons c rest => exact List.dropWhile_cons_of_neg (by simp [hrest c rfl])
  have hne : ds.take 9 ≠ [] := by simpa using hd.ne_nil
  refine ⟨_, ?_, nanos_div hd.isDigit⟩
  simp only [fraction?, hfront, if_neg hne, hbehind]

theorem IsFraction.fraction?_eq (h : IsFraction micros fs) :
    ∃ nanos, fraction? fs = some (nanos, []) ∧ nanos / 1000 = micros := by
  cases h with
  | none => exact ⟨0, rfl, rfl⟩
  | digits hd =>
    have h := fraction?_digits hd stopsDigits_nil
    rwa [List.append_nil] at h

theorem isFraction_of_fraction? (h : fraction? cs = some (nanos, [])) :
    IsFraction (nanos / 1000) cs := by
  match cs, h with
  | [], h =>
    cases h
    exact .none
  | c :: cs, h =>
    by_cases hpoint : c = '.'
    · subst hpoint
      have hsplit : cs.takeWhile Char.isDigit ++ cs.dropWhile Char.isDigit = cs :=
        List.takeWhile_append_dropWhile
      by_cases hne : cs.takeWhile Char.isDigit = []
      · have hnone : (cs.take 9).takeWhile Char.isDigit = [] := by
          rw [← List.take_takeWhile, hne, List.take_nil]
        simp only [fraction?, hnone, if_true] at h
        cases h
      · have hd : AreDigits (cs.takeWhile Char.isDigit) :=
          ⟨hne, List.all_eq_true.mp List.all_takeWhile⟩
        obtain ⟨nanos', hread, hnanos⟩ := fraction?_digits hd (stopsDigits_dropWhile cs)
        rw [hsplit, h] at hread
        obtain ⟨rfl, hend⟩ := Prod.mk.inj (Option.some.inj hread)
        rw [← hend, List.append_nil] at hsplit
        rw [hnanos]
        rw [hsplit] at hd ⊢
        exact .digits hd
    · rw [fraction?] at h
      · cases h
      · simpa using hpoint

/-- A date and a time of day. Second 60 is the second after second 59. -/
structure Moment where
  date : Calendar.Date
  hour : Nat
  minute : Nat
  second : Nat
  micros : Nat
deriving DecidableEq

namespace Moment

/-- Whether characters are this date and time of day. -/
inductive IsWrittenBy (m : Moment) : List Char → Prop where
  | parts (hyear : IsYear m.date.year ys) (hmonth : IsField m.date.month ms)
      (hday : IsField m.date.day ds) (hhour : IsField m.hour hs) (hminute : IsField m.minute mins)
      (hsecond : IsField m.second ss) (hmicros : IsFraction m.micros fs) :
      IsWrittenBy m
        (ys ++ '-' :: (ms ++ '-' :: (ds ++ 'T' :: (hs ++ ':' :: (mins ++ ':' :: (ss ++ fs))))))

/-- Whether the date exists in a year that has a text, and there is such a time of day. -/
structure IsProper (m : Moment) : Prop where
  minYear_le : minYear ≤ m.date.year
  year_le : m.date.year ≤ maxYear
  date_isValid : m.date.isValid
  hour_le : m.hour ≤ 23
  minute_le : m.minute ≤ 59
  second_le : m.second ≤ 60
  micros_lt : m.micros < 1000000

/-- The microseconds from 1970 to a moment. -/
def instant (m : Moment) : Int :=
  ((Calendar.dayOfDate m.date - Calendar.epochDay) * 86400 +
    (m.hour * 3600 + m.minute * 60 + m.second : Nat)) * 1000000 + m.micros

end Moment

theorem mark?_eq_some : mark? c cs = some rest ↔ cs = c :: rest := by
  cases cs with
  | nil => simp [mark?]
  | cons d cs =>
    rw [mark?]
    split
    · rename_i hd
      simp [hd]
    · rename_i hd
      simp [hd]

theorem exists_marked {next : Nat × List Char → Option β}
    (h : ((mark? c cs).bind fun cs => (field? low high cs).bind next) = some b) :
    ∃ n fs rest, cs = c :: (fs ++ rest) ∧ IsField n fs ∧ low ≤ n ∧ n ≤ high ∧
      next (n, rest) = some b := by
  obtain ⟨behind, hmark, h⟩ := Option.bind_eq_some_iff.mp h
  obtain ⟨⟨n, rest⟩, hfield, hnext⟩ := Option.bind_eq_some_iff.mp h
  obtain ⟨fs, rfl, hf, hlow, hhigh⟩ := exists_field hfield
  exact ⟨n, fs, rest, mark?_eq_some.mp hmark, hf, hlow, hhigh, hnext⟩

theorem IsField.marked {next : Nat × List Char → Option β} (h : IsField n fs) (hlow : low ≤ n)
    (hhigh : n ≤ high) (hrest : StopsDigits rest) :
    ((mark? c (c :: (fs ++ rest))).bind fun cs => (field? low high cs).bind next) =
      next (n, rest) := by
  rw [mark?_cons, Option.bind_some, h.field?_append hlow hhigh hrest, Option.bind_some]

theorem IsFraction.lt (h : IsFraction micros fs) : micros < 1000000 := by
  cases h with
  | none => decide
  | @digits ds hd =>
    have hlt := Decimal.natOfDigits_lt hd.isDigit
    apply Nat.div_lt_of_lt_mul
    exact Nat.mul_lt_mul_of_pos_right hlt (by decide)

theorem IsFraction.stopsDigits (h : IsFraction micros fs) : StopsDigits fs := by
  cases h with
  | none => exact stopsDigits_nil
  | digits => exact stopsDigits_cons rfl

theorem exists_moment (hread : parse? cs = some i) :
    ∃ m : Moment, m.IsWrittenBy cs ∧ m.IsProper ∧ m.instant = i := by
  obtain ⟨⟨year, cs⟩, hfront, h⟩ := Option.bind_eq_some_iff.mp hread
  obtain ⟨ys, rfl, hyear⟩ := exists_year hfront
  obtain ⟨month, ms, cs, rfl, hmonth, -, -, h⟩ := exists_marked h
  obtain ⟨day, ds, cs, rfl, hday, -, -, h⟩ := exists_marked h
  obtain ⟨hour, hs, cs, rfl, hhour, -, hhour', h⟩ := exists_marked h
  obtain ⟨minute, mins, cs, rfl, hminute, -, hminute', h⟩ := exists_marked h
  obtain ⟨second, ss, fs, rfl, hsecond, -, hsecond', h⟩ := exists_marked h
  obtain ⟨⟨nanos, rest⟩, hfraction, h⟩ := Option.bind_eq_some_iff.mp h
  simp only at h
  split at h
  · rename_i hproper
    obtain ⟨rfl, hmin, hmax, hvalid⟩ := hproper
    cases h
    exists ⟨⟨year, month, day⟩, hour, minute, second, nanos / 1000⟩
    have hmicros := isFraction_of_fraction? hfraction
    exact ⟨.parts hyear hmonth hday hhour hminute hsecond hmicros,
      ⟨hmin, hmax, hvalid, hhour', hminute', hsecond', hmicros.lt⟩, rfl⟩
  · cases h

theorem Moment.IsWrittenBy.parse?_eq {m : Moment} (h : m.IsWrittenBy cs) (hm : m.IsProper) :
    parse? cs = some m.instant := by
  obtain ⟨hyear, hmonth, hday, hhour, hminute, hsecond, hfraction⟩ := h
  obtain ⟨nanos, hread, hnanos⟩ := hfraction.fraction?_eq
  obtain ⟨hmonths, hdays⟩ := Calendar.bounds_of_isValid hm.date_isValid
  rw [parse?, hyear.year?_append (stopsDigits_cons rfl)]
  simp only [Option.bind_eq_bind, Option.bind_some]
  rw [hmonth.marked hmonths.1 hmonths.2 (stopsDigits_cons rfl)]
  simp only
  rw [hday.marked hdays.1 hdays.2 (stopsDigits_cons rfl)]
  simp only
  rw [hhour.marked (Nat.zero_le _) hm.hour_le (stopsDigits_cons rfl)]
  simp only
  rw [hminute.marked (Nat.zero_le _) hm.minute_le (stopsDigits_cons rfl)]
  simp only
  rw [hsecond.marked (Nat.zero_le _) hm.second_le hfraction.stopsDigits]
  simp only [hread, Option.bind_some]
  rw [if_pos ⟨trivial, hm.minYear_le, hm.year_le, hm.date_isValid⟩, microsOf, hnanos]
  rfl

theorem parse?_eq_some :
    parse? cs = some i ↔ ∃ m : Moment, m.IsWrittenBy cs ∧ m.IsProper ∧ m.instant = i := by
  constructor
  · intro h
    exact exists_moment h
  · intro ⟨m, hwritten, hproper, hinstant⟩
    rw [hwritten.parse?_eq hproper, hinstant]

theorem Moment.IsProper.day_bounds {m : Moment} (hm : m.IsProper) :
    -95746130 ≤ Calendar.dayOfDate m.date ∧ Calendar.dayOfDate m.date ≤ 95745398 := by
  obtain ⟨hlow, hhigh⟩ := Calendar.dayOfDate_bounds hm.date_isValid
  have hfirst := Calendar.firstDay_mono hm.minYear_le
  have hend := Calendar.firstDay_mono (Int.add_le_add_right hm.year_le 1)
  have hmin : Calendar.firstDay minYear = -95746130 := by decide
  have hmax : Calendar.firstDay (maxYear + 1) = 95745399 := by decide
  omega

/-- Whether a moment is in second 60 of the last minute of the calendar. -/
structure Moment.IsPastLast (m : Moment) : Prop where
  date_eq : m.date = ⟨maxYear, 12, 31⟩
  hour_eq : m.hour = 23
  minute_eq : m.minute = 59
  second_eq : m.second = 60

theorem Moment.IsPastLast.isProper {m : Moment} (h : m.IsPastLast) (hmicros : m.micros < 1000000) :
    m.IsProper := by
  obtain ⟨date, hour, minute, second, micros⟩ := m
  obtain ⟨rfl, rfl, rfl, rfl⟩ := h
  have hyear : minYear ≤ maxYear := by decide
  have hdate : Calendar.Date.isValid ⟨maxYear, 12, 31⟩ := by decide
  exact ⟨hyear, Int.le_refl _, hdate, Nat.le_refl _, Nat.le_refl _, Nat.le_refl _, hmicros⟩

theorem Moment.IsProper.instant_bounds {m : Moment} (hm : m.IsProper) :
    minMicros ≤ m.instant ∧ m.instant ≤ maxMicros + 1000000 := by
  obtain ⟨hlow, hhigh⟩ := hm.day_bounds
  have hepoch : Calendar.epochDay = 719162 := rfl
  have := hm.hour_le
  have := hm.minute_le
  have := hm.second_le
  have := hm.micros_lt
  rw [instant, minMicros, maxMicros]
  omega

theorem Moment.IsProper.isPastLast_iff {m : Moment} (hm : m.IsProper) :
    m.IsPastLast ↔ maxMicros < m.instant := by
  obtain ⟨-, hhigh⟩ := hm.day_bounds
  have hepoch : Calendar.epochDay = 719162 := rfl
  have := hm.hour_le
  have := hm.minute_le
  have := hm.second_le
  have := hm.micros_lt
  rw [instant, maxMicros]
  constructor
  · intro hlast
    obtain ⟨hdate, hhour, hminute, hsecond⟩ := hlast
    have hday : Calendar.dayOfDate m.date = 95745398 := by
      rw [hdate]
      decide
    omega
  · intro hmax
    have hday : Calendar.dayOfDate m.date = 95745398 := by omega
    have hdate := Calendar.dateOfDay_dayOfDate hm.date_isValid
    rw [hday] at hdate
    have hend : Calendar.dateOfDay 95745398 = ⟨maxYear, 12, 31⟩ := by decide
    exact ⟨hdate.symm.trans hend, by omega, by omega, by omega⟩

/-- All moments have a text again, except those in the second behind the calendar. -/
theorem Moment.IsProper.isRepresentable_iff {m : Moment} (hm : m.IsProper) :
    isRepresentable m.instant ↔ ¬m.IsPastLast := by
  rw [TimeText.isRepresentable_iff, hm.isPastLast_iff, Int.not_lt]
  exact and_iff_right hm.instant_bounds.1

def EndsInDigit (cs : List Char) : Prop := ∃ c, cs.getLast? = some c ∧ c.isDigit

theorem AreDigits.endsInDigit (h : AreDigits ds) : EndsInDigit ds := by
  cases hlast : ds.getLast? with
  | none => exact absurd (List.getLast?_eq_none_iff.mp hlast) h.ne_nil
  | some c => exact ⟨c, hlast, h.isDigit c (List.mem_of_getLast? hlast)⟩

theorem EndsInDigit.append (h : EndsInDigit ds) (cs : List Char) : EndsInDigit (cs ++ ds) := by
  obtain ⟨c, hlast, hc⟩ := h
  exists c
  rw [List.getLast?_append, hlast]
  exact ⟨rfl, hc⟩

theorem EndsInDigit.mark (h : EndsInDigit ds) (c : Char) (cs : List Char) :
    EndsInDigit (cs ++ c :: ds) :=
  (h.append [c]).append cs

theorem IsField.endsInDigit (h : IsField n fs) : EndsInDigit fs := by
  cases h with
  | digits hb hd => exact hd.endsInDigit.append _

theorem IsFraction.endsInDigit_append (h : IsFraction micros fs) (hs : IsField n ss) :
    EndsInDigit (ss ++ fs) := by
  cases h with
  | none =>
    rw [List.append_nil]
    exact hs.endsInDigit
  | digits hd => exact hd.endsInDigit.mark '.' ss

theorem Moment.IsWrittenBy.endsInDigit {m : Moment} (h : m.IsWrittenBy cs) : EndsInDigit cs := by
  obtain ⟨-, -, -, -, -, hsecond, hmicros⟩ := h
  have hend := hmicros.endsInDigit_append hsecond
  exact ((((hend.mark ':' _).mark ':' _).mark 'T' _).mark '-' _).mark '-' _

/-- Whether a text is this date and time of day, with a `Z` behind it or without. -/
def Moment.IsSpelledBy (m : Moment) (s : String) : Prop :=
  ∃ cs, m.IsWrittenBy cs ∧ (s.toList = cs ∨ s.toList = cs ++ ['Z'])

theorem Moment.IsSpelledBy.micros_lt {m : Moment} (h : m.IsSpelledBy s) : m.micros < 1000000 := by
  obtain ⟨cs, ⟨-, -, -, -, -, -, hmicros⟩, -⟩ := h
  exact hmicros.lt

end TimeText

namespace Time
set_option autoImplicit true
open TimeText

theorem parseMicros_of_parse? (hs : s.toList = cs ∨ s.toList = cs ++ ['Z'])
    (hend : EndsInDigit cs) (hread : parse? cs = some i) : parseMicros s = .ok i := by
  obtain ⟨c, hlast, hc⟩ := hend
  have hzone : cs.getLast? ≠ some 'Z' := by
    rw [hlast]
    rintro ⟨⟩
    cases hc
  rcases hs with hs | hs
  · simp only [parseMicros, hs, if_neg hzone, hread]
  · have hz : (cs ++ ['Z']).getLast? = some 'Z' := by simp
    simp only [parseMicros, hs, hz, if_true, List.dropLast_concat, hread]

theorem exists_unzoned (h : parseMicros s = .ok i) :
    ∃ cs, (s.toList = cs ∨ s.toList = cs ++ ['Z']) ∧ parse? cs = some i := by
  simp only [parseMicros] at h
  split at h
  · rename_i micros hread
    cases h
    split at hread
    · rename_i hz
      obtain ⟨cs, hs⟩ := List.getLast?_eq_some_iff.mp hz
      rw [hs, List.dropLast_concat] at hread
      exact ⟨cs, .inr hs, hread⟩
    · exact ⟨_, .inl rfl, hread⟩
  · cases h

/-- A text is read as an instant just if it is a moment of that instant. -/
theorem parseMicros_eq_ok :
    parseMicros s = .ok i ↔ ∃ m : Moment, m.IsSpelledBy s ∧ m.IsProper ∧ m.instant = i := by
  constructor
  · intro h
    obtain ⟨cs, hs, hread⟩ := exists_unzoned h
    obtain ⟨m, hwritten, hproper, hinstant⟩ := parse?_eq_some.mp hread
    exact ⟨m, ⟨cs, hwritten, hs⟩, hproper, hinstant⟩
  · intro ⟨m, ⟨cs, hwritten, hs⟩, hproper, hinstant⟩
    have hread := hwritten.parse?_eq hproper
    rw [hinstant] at hread
    exact parseMicros_of_parse? hs hwritten.endsInDigit hread

end Time

namespace TimePoint
set_option autoImplicit true
open TimeText

theorem toInt_ofMicros {m : Moment} (hm : m.IsProper) :
    (ofMicros m.instant).micros.toInt = m.instant := by
  obtain ⟨hlow, hhigh⟩ := hm.instant_bounds
  rw [minMicros] at hlow
  rw [maxMicros] at hhigh
  apply Int64.toInt_ofInt_of_le
  · omega
  · omega

theorem parse_eq_ok : parse s = .ok t ↔
    ∃ m : Moment, m.IsSpelledBy s ∧ m.IsProper ∧ t.micros.toInt = m.instant := by
  constructor
  · intro h
    obtain ⟨i, hread, rfl⟩ := Result.map_eq_ok.mp h
    obtain ⟨m, hs, hm, rfl⟩ := Time.parseMicros_eq_ok.mp hread
    exact ⟨m, hs, hm, toInt_ofMicros hm⟩
  · intro ⟨m, hs, hm, ht⟩
    have hread := Time.parseMicros_eq_ok.mpr ⟨m, hs, hm, rfl⟩
    rw [parse, hread, ← ht]
    simp [Except.map, ofMicros]

/-- Whether a text is a moment in second 60 of the last minute of the calendar. -/
def IsPastLast (s : String) : Prop := ∃ m : Moment, m.IsSpelledBy s ∧ m.IsPastLast

/-- A time that is read has a text again, unless it was read from second 60 of the last minute of
the calendar. -/
theorem isRepresentable_iff_of_parse (h : parse s = .ok t) : t.isRepresentable ↔ ¬IsPastLast s := by
  constructor
  · intro hrepr ⟨m, hs, hlast⟩
    have hm := hlast.isProper hs.micros_lt
    have hread := parse_eq_ok.mpr ⟨m, hs, hm, toInt_ofMicros hm⟩
    rw [h] at hread
    cases hread
    rw [isRepresentable, toInt_ofMicros hm] at hrepr
    exact hm.isRepresentable_iff.mp hrepr hlast
  · intro hlast
    obtain ⟨m, hs, hm, ht⟩ := parse_eq_ok.mp h
    rw [isRepresentable, ht]
    exact hm.isRepresentable_iff.mpr fun hm => hlast ⟨m, hs, hm⟩

end TimePoint
end ChainKit
