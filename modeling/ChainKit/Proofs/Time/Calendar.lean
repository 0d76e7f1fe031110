import ChainKit.Time.Calendar

namespace ChainKit.Calendar
set_option autoImplicit true

theorem isLeap_iff (year : Int) :
    isLeap year ↔ year % 4 = 0 ∧ (year % 100 ≠ 0 ∨ year % 400 = 0) := by
  simp [isLeap]

theorem firstDay_succ (year : Int) :
    firstDay (year + 1) = firstDay year + total (monthLengths (isLeap year)) := by
  have hleap := isLeap_iff year
  cases h : isLeap year with
  | true =>
    have hl := hleap.1 h
    change _ = _ + ((366 : Nat) : Int)
    simp only [firstDay]
    omega
  | false =>
    have hl : ¬(year % 4 = 0 ∧ (year % 100 ≠ 0 ∨ year % 400 = 0)) := fun hc => by
      rw [hleap.2 hc] at h
      cases h
    change _ = _ + ((365 : Nat) : Int)
    simp only [firstDay]
    omega

theorem firstDay_mono {y z : Int} (h : y ≤ z) : firstDay y ≤ firstDay z := by
  simp only [firstDay]
  omega

theorem firstDay_yearOfDay (day : Int) :
    firstDay (yearOfDay day) ≤ day ∧ day < firstDay (yearOfDay day + 1) := by
  simp only [yearOfDay]
  split
  · rename_i h
    refine ⟨h, ?_⟩
    simp only [firstDay]
    omega
  · split
    · rename_i h
      refine ⟨?_, by simpa using h⟩
      simp only [firstDay]
      omega
    · omega

theorem le_yearOfDay {y day : Int} (h : firstDay y ≤ day) : y ≤ yearOfDay day := by
  rcases Int.lt_or_le (yearOfDay day) y with hlt | hle
  · have hmono := firstDay_mono (show yearOfDay day + 1 ≤ y by omega)
    have hday := (firstDay_yearOfDay day).2
    omega
  · exact hle

theorem yearOfDay_lt {y day : Int} (h : day < firstDay y) : yearOfDay day < y := by
  rcases Int.lt_or_le (yearOfDay day) y with hlt | hle
  · exact hlt
  · have hmono := firstDay_mono hle
    have hday := (firstDay_yearOfDay day).1
    omega

theorem monthOfDay_spec (month : Nat) {lengths : List Nat} {day : Nat} (h : day < total lengths) :
    ∃ i length, monthOfDay month lengths day = (month + i, day - total (lengths.take i) + 1) ∧
      lengths[i]? = some length ∧ total (lengths.take i) ≤ day ∧
        day - total (lengths.take i) < length := by
  induction lengths generalizing month day with
  | nil => exact absurd h (Nat.not_lt_zero day)
  | cons length rest ih =>
    rw [monthOfDay]
    split
    · rename_i hlt
      exact ⟨0, length, by simp [total], rfl, by simp [total], by simpa [total] using hlt⟩
    · rename_i hge
      rw [total] at h
      obtain ⟨i, len, he, hi, hle, hday⟩ := ih (month + 1) (show day - length < total rest by omega)
      refine ⟨i + 1, len, ?_, hi, ?_, ?_⟩
      · rw [he, List.take_succ_cons, total, Nat.sub_sub]
        congr 1
        omega
      · rw [List.take_succ_cons, total]
        omega
      · rw [List.take_succ_cons, total]
        omega

theorem total_take_add_lt {lengths : List Nat} (hi : lengths[i]? = some length)
    (hd : d < length) : total (lengths.take i) + d < total lengths := by
  induction lengths generalizing i with
  | nil => cases hi
  | cons first rest ih =>
    cases i with
    | zero =>
      cases hi
      simp only [List.take_zero, total]
      omega
    | succ i =>
      have hrest := ih hi
      simp only [List.take_succ_cons, total]
      omega

theorem monthOfDay_total_take (month : Nat) {lengths : List Nat}
    (hi : lengths[i]? = some length) (hd : d < length) :
    monthOfDay month lengths (total (lengths.take i) + d) = (month + i, d + 1) := by
  induction lengths generalizing i month with
  | nil => cases hi
  | cons first rest ih =>
    cases i with
    | zero =>
      cases hi
      simp only [List.take_zero, total, Nat.zero_add, monthOfDay, if_pos hd, Nat.add_zero]
    | succ i =>
      have hge : ¬first + total (rest.take i) + d < first := by omega
      have hsub : first + total (rest.take i) + d - first = total (rest.take i) + d := by omega
      rw [List.take_succ_cons, total, monthOfDay, if_neg hge, hsub, ih (month + 1) hi,
        Nat.add_right_comm, Nat.add_assoc]

theorem dateOfDay_spec (day : Int) :
    ∃ i length d, dateOfDay day = ⟨yearOfDay day, i + 1, d + 1⟩ ∧
      (monthLengths (isLeap (yearOfDay day)))[i]? = some length ∧ d < length ∧
        day = firstDay (yearOfDay day) +
          total ((monthLengths (isLeap (yearOfDay day))).take i) + (d : Int) := by
  obtain ⟨hlow, hhigh⟩ := firstDay_yearOfDay day
  rw [firstDay_succ] at hhigh
  have hday : (day - firstDay (yearOfDay day)).toNat <
      total (monthLengths (isLeap (yearOfDay day))) := by omega
  obtain ⟨i, length, he, hi, hle, hd⟩ := monthOfDay_spec 1 hday
  refine ⟨i, length, _, ?_, hi, hd, by omega⟩
  simp only [dateOfDay, he, Nat.add_comm 1 i]

theorem isValid_dateOfDay (day : Int) : (dateOfDay day).isValid := by
  obtain ⟨i, length, d, he, hi, hd, _⟩ := dateOfDay_spec day
  have hlen : (monthLengths (isLeap (yearOfDay day))).length = 12 := rfl
  have hlt : i < 12 := by
    have := (List.getElem?_eq_some_iff.1 hi).1
    omega
  simp only [Date.isValid, he, Bool.and_eq_true, decide_eq_true_eq, Nat.add_sub_cancel,
    List.getD_eq_getElem?_getD, hi, Option.getD_some]
  omega

@[simp] theorem dayOfDate_dateOfDay (day : Int) : dayOfDate (dateOfDay day) = day := by
  obtain ⟨i, length, d, he, _, _, hday⟩ := dateOfDay_spec day
  simp only [dayOfDate, he, Nat.add_sub_cancel]
  omega

theorem exists_month (h : Date.isValid date) : ∃ i length d, date = ⟨date.year, i + 1, d + 1⟩ ∧
    (monthLengths (isLeap date.year))[i]? = some length ∧ d < length := by
  obtain ⟨year, month, day⟩ := date
  have hlen : (monthLengths (isLeap year)).length = 12 := rfl
  simp only [Date.isValid, Bool.and_eq_true, decide_eq_true_eq,
    List.getD_eq_getElem?_getD] at h
  have hi : month - 1 < (monthLengths (isLeap year)).length := by omega
  rw [List.getElem?_eq_getElem hi, Option.getD_some] at h
  have hdate : (⟨year, month, day⟩ : Date) = ⟨year, month - 1 + 1, day - 1 + 1⟩ := by
    congr 1 <;> omega
  exact ⟨month - 1, _, day - 1, hdate, List.getElem?_eq_getElem hi, by omega⟩

/-- The days of a year are those from its first day up to the first day of the next one. -/
theorem dayOfDate_bounds (h : Date.isValid date) :
    firstDay date.year ≤ dayOfDate date ∧ dayOfDate date < firstDay (date.year + 1) := by
  obtain ⟨i, length, d, hdate, hi, hd⟩ := exists_month h
  have hlt := total_take_add_lt hi hd
  rw [firstDay_succ, hdate]
  simp only [dayOfDate, Nat.add_sub_cancel]
  omega

theorem dateOfDay_dayOfDate (h : Date.isValid date) : dateOfDay (dayOfDate date) = date := by
  obtain ⟨hlow, hhigh⟩ := dayOfDate_bounds h
  have hyear : yearOfDay (dayOfDate date) = date.year := by
    have hle := le_yearOfDay hlow
    have hlt := yearOfDay_lt hhigh
    omega
  obtain ⟨i, length, d, hdate, hi, hd⟩ := exists_month h
  have hday : (dayOfDate date - firstDay date.year).toNat =
      total ((monthLengths (isLeap date.year)).take i) + d := by
    rw [hdate]
    simp only [dayOfDate, Nat.add_sub_cancel]
    omega
  simp only [dateOfDay, hyear, hday, monthOfDay_total_take 1 hi hd]
  rw [hdate, Nat.add_comm 1 i]

theorem bounds_of_isValid (h : Date.isValid date) :
    (1 ≤ date.month ∧ date.month ≤ 12) ∧ 1 ≤ date.day ∧ date.day ≤ 31 := by
  obtain ⟨i, length, d, hdate, hi, hd⟩ := exists_month h
  have hmax : ∀ leap, ∀ n ∈ monthLengths leap, n ≤ 31 := by decide
  have hlen : (monthLengths (isLeap date.year)).length = 12 := rfl
  have hmonth := (List.getElem?_eq_some_iff.mp hi).1
  have hday := hmax _ _ (List.mem_of_getElem? hi)
  rw [hdate]
  simp only
  omega

theorem month_dateOfDay (day : Int) : 1 ≤ (dateOfDay day).month ∧ (dateOfDay day).month ≤ 12 :=
  (bounds_of_isValid (isValid_dateOfDay day)).1

theorem day_dateOfDay (day : Int) : 1 ≤ (dateOfDay day).day ∧ (dateOfDay day).day ≤ 31 :=
  (bounds_of_isValid (isValid_dateOfDay day)).2

end ChainKit.Calendar
