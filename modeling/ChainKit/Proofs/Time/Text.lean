import ChainKit.Proofs.Text.Decimal
import ChainKit.Proofs.Time.Calendar
import ChainKit.Time.Basic

namespace ChainKit

namespace TimeText
set_option autoImplicit true

def StopsDigits (cs : List Char) : Prop := ∀ c, cs.head? = some c → c.isDigit = false

theorem takeWhile_digits (hds : ∀ c ∈ ds, c.isDigit) (hrest : StopsDigits rest) :
    (ds ++ rest).takeWhile Char.isDigit = ds := by
  have hr : rest.takeWhile Char.isDigit = [] := by
    cases rest with
    | nil => rfl
    | cons c rest => exact List.takeWhile_cons_of_neg (by simp [hrest c rfl])
  rw [List.takeWhile_append_of_pos hds, hr, List.append_nil]

theorem number?_append (hne : ds ≠ []) (hds : ∀ c ∈ ds, c.isDigit) (hlimit : ds.length ≤ limit)
    (hrest : ds.length = limit ∨ StopsDigits rest) :
    number? limit (ds ++ rest) = some (Decimal.natOfDigits ds, rest) := by
  have hread : ((ds ++ rest).take limit).takeWhile Char.isDigit = ds := by
    rw [List.take_append, List.take_of_length_le hlimit]
    rcases hrest with h | h
    · rw [h, Nat.sub_self, List.take_zero]
      exact takeWhile_digits hds fun c hc => by cases hc
    · refine takeWhile_digits hds fun c hc => ?_
      rw [List.head?_take] at hc
      split at hc
      · cases hc
      · exact h c hc
  simp only [number?, hread, if_neg hne, List.drop_left]

theorem trimStart_digits (hne : ds ≠ []) (hds : ∀ c ∈ ds, c.isDigit) :
    Text.trimStart (ds ++ rest) = ds ++ rest := by
  refine Text.trimStart_eq fun c hc => ?_
  cases ds with
  | nil => exact absurd rfl hne
  | cons d ds =>
    rw [List.cons_append, List.head?_cons, Option.some.injEq] at hc
    exact Text.isBlank_digit (hc ▸ hds d List.mem_cons_self)

theorem field?_padded (hlow : low ≤ n) (hhigh : n ≤ high) (h : n < 100) :
    field? low high (Decimal.padded 2 n ++ rest) = some (n, rest) := by
  have hlen : (Decimal.padded 2 n).length = 2 := Decimal.length_padded (by decide) h
  have hdigits : ∀ c ∈ Decimal.padded 2 n, c.isDigit := fun _ => Decimal.isDigit_of_mem_padded
  rw [field?, trimStart_digits (Decimal.padded_ne_nil 2 n) hdigits,
    number?_append (Decimal.padded_ne_nil 2 n) hdigits (by omega) (.inl hlen)]
  simp [hlow, hhigh]

theorem year?_yearChars (year : Int) (h : StopsDigits rest) :
    year? (yearChars year ++ rest) = some (year, rest) := by
  have hdigits : ∀ c ∈ Decimal.padded 4 year.natAbs, c.isDigit := fun _ =>
    Decimal.isDigit_of_mem_padded
  have hne := Decimal.padded_ne_nil 4 year.natAbs
  have hsigned : number? (Decimal.padded 4 year.natAbs ++ rest).length
      (Decimal.padded 4 year.natAbs ++ rest) = some (year.natAbs, rest) := by
    rw [number?_append hne hdigits (by simp) (.inr h), Decimal.natOfDigits_padded]
  rw [yearChars]
  split
  · rename_i hy
    have hlen : (Decimal.padded 4 year.natAbs).length = 4 :=
      Decimal.length_padded (by decide) (show year.natAbs < 10 ^ 4 by omega)
    rw [year?, trimStart_digits hne hdigits]
    have hplain : number? 4 (Decimal.padded 4 year.natAbs ++ rest) = some (year.natAbs, rest) := by
      rw [number?_append hne hdigits (by omega) (.inl hlen), Decimal.natOfDigits_padded]
    cases hp : Decimal.padded 4 year.natAbs with
    | nil => exact absurd hp hne
    | cons d ds =>
      have hd := hdigits d (hp ▸ List.mem_cons_self)
      rw [hp] at hplain
      rw [List.cons_append] at hplain ⊢
      split
      · rename_i he
        cases he
        cases hd
      · rename_i he
        cases he
        cases hd
      · rw [hplain]
        simp only [Option.map_some, Option.some.injEq, Prod.mk.injEq, and_true]
        omega
  · rename_i hy
    split
    · rename_i hneg
      have htrim : Text.trimStart ('-' :: Decimal.padded 4 year.natAbs ++ rest) =
          '-' :: (Decimal.padded 4 year.natAbs ++ rest) := Text.trimStart_eq fun c hc => by
        cases hc
        decide
      rw [year?, htrim]
      simp only [hsigned, Option.map_some, Option.some.injEq, Prod.mk.injEq, and_true]
      omega
    · rename_i hpos
      have htrim : Text.trimStart ('+' :: Decimal.padded 4 year.natAbs ++ rest) =
          '+' :: (Decimal.padded 4 year.natAbs ++ rest) := Text.trimStart_eq fun c hc => by
        cases hc
        decide
      rw [year?, htrim]
      simp only [hsigned, Option.map_some, Option.some.injEq, Prod.mk.injEq, and_true]
      omega

@[simp] theorem mark?_cons (c : Char) (cs : List Char) : mark? c (c :: cs) = some cs := by
  simp [mark?]

theorem fraction?_padded (hwidth : 0 < width ∧ width ≤ 9) (h : n < 10 ^ width) :
    fraction? ('.' :: Decimal.padded width n) = some (n * 10 ^ (9 - width), []) := by
  have hlen : (Decimal.padded width n).length = width := Decimal.length_padded hwidth.1 h
  have hread : ((Decimal.padded width n).take 9).takeWhile Char.isDigit =
      Decimal.padded width n := by
    have hstop : StopsDigits [] := fun c hc => by cases hc
    have hdigits : (Decimal.padded width n ++ []).takeWhile Char.isDigit =
        Decimal.padded width n :=
      takeWhile_digits (fun _ => Decimal.isDigit_of_mem_padded) hstop
    rw [List.take_of_length_le (by omega)]
    rwa [List.append_nil] at hdigits
  simp only [fraction?, hread, if_neg (Decimal.padded_ne_nil width n), Decimal.natOfDigits_padded,
    hlen]
  rw [List.drop_of_length_le (by omega)]
  rfl

def fractionChars (n : Nat) : List Char :=
  if n % 1000 = 0 then Decimal.padded 3 (n / 1000) else Decimal.padded 6 n

theorem fraction?_fractionChars (h : n < 1000000) :
    ∃ nanos, fraction? ('.' :: fractionChars n) = some (nanos, []) ∧ nanos / 1000 = n := by
  rw [fractionChars]
  split
  · exact ⟨_, fraction?_padded (by decide) (by omega), by omega⟩
  · exact ⟨_, fraction?_padded (by decide) (by omega), by omega⟩

def dateOfSecond (second : Int) : Calendar.Date :=
  Calendar.dateOfDay (second / 86400 + Calendar.epochDay)

theorem chars_eq (micros : Int) :
    chars micros = yearChars (dateOfSecond (micros / 1000000)).year ++
      ('-' :: (Decimal.padded 2 (dateOfSecond (micros / 1000000)).month ++
      ('-' :: (Decimal.padded 2 (dateOfSecond (micros / 1000000)).day ++
      ('T' :: (Decimal.padded 2 ((micros / 1000000 % 86400).toNat / 3600) ++
      (':' :: (Decimal.padded 2 ((micros / 1000000 % 86400).toNat / 60 % 60) ++
      (':' :: (Decimal.padded 2 ((micros / 1000000 % 86400).toNat % 60) ++
      ('.' :: fractionChars (micros % 1000000).toNat))))))))))) := by
  simp only [chars, dateOfSecond, fractionChars, List.append_assoc, List.cons_append]

theorem stopsDigits_cons (h : c.isDigit = false) : StopsDigits (c :: cs) := fun d hd => by
  cases hd
  exact h

theorem isRepresentable_iff (micros : Int) :
    isRepresentable micros ↔ minMicros ≤ micros ∧ micros ≤ maxMicros := by
  simp [isRepresentable]

/-- The years of representable times are those that have a text. -/
theorem year_of_isRepresentable (h : isRepresentable micros) :
    minYear ≤ (dateOfSecond (micros / 1000000)).year ∧
      (dateOfSecond (micros / 1000000)).year ≤ maxYear := by
  rw [isRepresentable_iff, minMicros, maxMicros] at h
  have hepoch : Calendar.epochDay = 719162 := rfl
  have hfirst : Calendar.firstDay minYear = -95746130 := by decide
  have hend : Calendar.firstDay (maxYear + 1) = 95745399 := by decide
  have hlow : Calendar.firstDay minYear ≤ micros / 1000000 / 86400 + Calendar.epochDay := by omega
  have hhigh : micros / 1000000 / 86400 + Calendar.epochDay < Calendar.firstDay (maxYear + 1) := by
    omega
  have hy := Calendar.yearOfDay_lt hhigh
  exact ⟨Calendar.le_yearOfDay hlow, Int.le_of_lt_add_one hy⟩

theorem parse?_chars (h : isRepresentable micros) : parse? (chars micros) = some micros := by
  obtain ⟨hmin, hmax⟩ := year_of_isRepresentable h
  have hvalid : (dateOfSecond (micros / 1000000)).isValid := Calendar.isValid_dateOfDay _
  have hnumber : Calendar.dayOfDate (dateOfSecond (micros / 1000000)) =
      micros / 1000000 / 86400 + Calendar.epochDay := Calendar.dayOfDate_dateOfDay _
  have hmonth : 1 ≤ (dateOfSecond (micros / 1000000)).month ∧
      (dateOfSecond (micros / 1000000)).month ≤ 12 := Calendar.month_dateOfDay _
  have hday : 1 ≤ (dateOfSecond (micros / 1000000)).day ∧
      (dateOfSecond (micros / 1000000)).day ≤ 31 := Calendar.day_dateOfDay _
  rw [chars_eq]
  generalize dateOfSecond (micros / 1000000) = date at *
  obtain ⟨nanos, hfraction, hnanos⟩ :=
    fraction?_fractionChars (show (micros % 1000000).toNat < 1000000 by omega)
  have hsecond : (micros / 1000000 % 86400).toNat < 86400 := by omega
  have htime : microsOf date ((micros / 1000000 % 86400).toNat / 3600)
      ((micros / 1000000 % 86400).toNat / 60 % 60) ((micros / 1000000 % 86400).toNat % 60) nanos =
      micros := by
    rw [microsOf, hnumber, hnanos]
    omega
  generalize (micros / 1000000 % 86400).toNat = s at hsecond htime ⊢
  rw [parse?, year?_yearChars _ (stopsDigits_cons rfl)]
  simp only [Option.bind_eq_bind, Option.bind_some, mark?_cons]
  rw [field?_padded hmonth.1 hmonth.2 (by omega)]
  simp only [Option.bind_some, mark?_cons]
  rw [field?_padded hday.1 hday.2 (by omega)]
  simp only [Option.bind_some, mark?_cons]
  rw [field?_padded (Nat.zero_le _) (by omega) (by omega)]
  simp only [Option.bind_some, mark?_cons]
  rw [field?_padded (Nat.zero_le _) (by omega) (by omega)]
  simp only [Option.bind_some, mark?_cons]
  rw [field?_padded (Nat.zero_le _) (by omega) (by omega)]
  simp only [Option.bind_some, hfraction, htime]
  exact if_pos ⟨trivial, hmin, hmax, hvalid⟩

theorem getLast?_chars (micros : Int) : (chars micros).getLast? ≠ some 'Z' := by
  have hne : fractionChars (micros % 1000000).toNat ≠ [] := by
    rw [fractionChars]
    split <;> exact Decimal.padded_ne_nil _ _
  have hdigits : ∀ c ∈ fractionChars (micros % 1000000).toNat, c.isDigit := by
    intro c hc
    rw [fractionChars] at hc
    split at hc <;> exact Decimal.isDigit_of_mem_padded hc
  intro h
  simp only [chars_eq, List.getLast?_append, List.getLast?_cons] at h
  cases hlast : (fractionChars (micros % 1000000).toNat).getLast? with
  | none => exact hne (List.getLast?_eq_none_iff.mp hlast)
  | some c =>
    have hc := hdigits c (List.mem_of_getLast? hlast)
    simp only [hlast, Option.getD_some, Option.some_or, Option.some.injEq] at h
    rw [h] at hc
    cases hc

/-- The times of whole seconds and of slots lie well inside the range. -/
theorem isRepresentable_of_bounds (hlow : 0 ≤ micros) (hhigh : micros < 10000000000000000) :
    isRepresentable micros := by
  rw [isRepresentable_iff, minMicros, maxMicros]
  omega

end TimeText

namespace Time
set_option autoImplicit true

theorem parseMicros_chars (h : TimeText.isRepresentable micros) :
    parseMicros (String.ofList (TimeText.chars micros)) = .ok micros := by
  simp only [parseMicros, String.toList_ofList, if_neg (TimeText.getLast?_chars micros),
    TimeText.parse?_chars h]

theorem word?_toNat (w : UInt32) : word? (w.toNat : Int) = some w := by
  have hlt : (w.toNat : Int) < 2 ^ 32 := by exact_mod_cast w.toNat_lt
  rw [word?, if_pos ⟨Int.natCast_nonneg _, hlt⟩, Int.toNat_natCast, UInt32.ofNat_toNat]

end Time

theorem TimeText.text?_eq_some {micros : Int} (h : isRepresentable micros) :
    text? micros = some (String.ofList (chars micros)) := if_pos h

theorem TimePoint.parse_text {t : TimePoint} (h : t.isRepresentable) :
    parse (t.text?.getD "") = .ok t := by
  rw [text?, TimeText.text?_eq_some h, Option.getD_some, parse, Time.parseMicros_chars h]
  simp [Except.map, ofMicros]

namespace TimePointSec
set_option autoImplicit true

theorem parse_eq_ok (hmicros : Time.parseMicros s = .ok micros)
    (hsecs : Time.word? (micros / 1000000) = some w) : parse s = .ok ⟨w⟩ := by
  simp only [parse, hmicros, hsecs]

theorem isRepresentable_toMicros (t : TimePointSec) : TimeText.isRepresentable t.toMicros := by
  have hlt := t.secs.toNat_lt
  have hmicros : t.toMicros = (t.secs.toNat : Int) * 1000000 := rfl
  exact TimeText.isRepresentable_of_bounds (by omega) (by omega)

@[simp] theorem parse_text (t : TimePointSec) : parse t.text = .ok t := by
  have hmicros : t.toMicros = (t.secs.toNat : Int) * 1000000 := rfl
  have hdiv : t.toMicros / 1000000 = t.secs.toNat := by omega
  have hread := Time.parseMicros_chars t.isRepresentable_toMicros
  exact parse_eq_ok hread (hdiv ▸ Time.word?_toNat t.secs)

end TimePointSec

namespace BlockTimestamp
set_option autoImplicit true

theorem parse_eq_ok (hmicros : Time.parseMicros s = .ok micros)
    (hslot : Time.word? ((micros / 1000 - epochMillis) / 500) = some w) :
    parse s = .ok ⟨w⟩ := by
  simp only [parse, hmicros, hslot]

theorem isRepresentable_toMicros (t : BlockTimestamp) : TimeText.isRepresentable t.toMicros := by
  have hlt := t.slot.toNat_lt
  have hepoch : epochMillis = 946684800000 := rfl
  have hmicros : t.toMicros = (epochMillis + (t.slot.toNat : Int) * 500) * 1000 := rfl
  exact TimeText.isRepresentable_of_bounds (by omega) (by omega)

@[simp] theorem parse_text (t : BlockTimestamp) : parse t.text = .ok t := by
  have hmicros : t.toMicros = (epochMillis + (t.slot.toNat : Int) * 500) * 1000 := rfl
  have hdiv : (t.toMicros / 1000 - epochMillis) / 500 = t.slot.toNat := by omega
  have hread := Time.parseMicros_chars t.isRepresentable_toMicros
  exact parse_eq_ok hread (hdiv ▸ Time.word?_toNat t.slot)

end BlockTimestamp

/-- All times that have a text are read back from it. These are the microsecond counts in range, all
counts of seconds and all slots. -/
theorem Time.parse_printed :
    (∀ t : TimePoint, t.isRepresentable →
      ∃ s, t.text? = some s ∧ TimePoint.parse s = .ok t) ∧
    (∀ t : TimePointSec, TimeText.text? t.toMicros = some t.text ∧
      TimePointSec.parse t.text = .ok t) ∧
    ∀ t : BlockTimestamp, TimeText.text? t.toMicros = some t.text ∧
      BlockTimestamp.parse t.text = .ok t := by
  constructor
  · intro t h
    have hread := TimePoint.parse_text h
    rw [TimePoint.text?, TimeText.text?_eq_some h, Option.getD_some] at hread
    exact ⟨_, TimeText.text?_eq_some h, hread⟩
  · constructor
    · intro t
      exact ⟨TimeText.text?_eq_some t.isRepresentable_toMicros, t.parse_text⟩
    · intro t
      exact ⟨TimeText.text?_eq_some t.isRepresentable_toMicros, t.parse_text⟩

example : TimePoint.text? ⟨-8334601228800000000⟩ = some "-262143-01-01T00:00:00.000" ∧
    TimePoint.text? ⟨8210266876799999999⟩ = some "+262142-12-31T23:59:59.999999" := by
  decide +kernel

end ChainKit
