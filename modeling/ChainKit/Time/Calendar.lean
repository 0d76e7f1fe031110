import ChainKit.Number.Whole

namespace ChainKit.Calendar

structure Date where
  year : Int
  month : Nat
  day : Nat
deriving DecidableEq, Repr

def isLeap (year : Int) : Bool := year % 4 = 0 && (year % 100 ≠ 0 || year % 400 = 0)

/-- The number of the first day of a year. -/
def firstDay (year : Int) : Int :=
  365 * (year - 1) + (year - 1) / 4 - (year - 1) / 100 + (year - 1) / 400

def monthLengths (leap : Bool) : List Nat :=
  [31, if leap then 29 else 28, 31, 30, 31, 30, 31, 31, 30, 31, 30, 31]

def Date.isValid (d : Date) : Bool :=
  1 ≤ d.month && d.month ≤ 12 && 1 ≤ d.day &&
    d.day ≤ (monthLengths (isLeap d.year)).getD (d.month - 1) 0

def dayOfDate (d : Date) : Int :=
  firstDay d.year + total ((monthLengths (isLeap d.year)).take (d.month - 1)) + (d.day - 1 : Nat)

/-- The year of a day. The mean length of a year gives it or the year before. -/
def yearOfDay (day : Int) : Int :=
  let year := day * 400 / 146097 + 1
  if firstDay (year + 1) ≤ day then year + 1
  else if day < firstDay year then year - 1
  else year

def monthOfDay (month : Nat) : (lengths : List Nat) → (day : Nat) → Nat × Nat
  | [], day => (month, day + 1)
  | length :: rest, day =>
    if day < length then (month, day + 1) else monthOfDay (month + 1) rest (day - length)

def dateOfDay (day : Int) : Date :=
  let year := yearOfDay day
  let (month, d) := monthOfDay 1 (monthLengths (isLeap year)) (day - firstDay year).toNat
  ⟨year, month, d⟩

def epochDay : Int := 719162

end ChainKit.Calendar
