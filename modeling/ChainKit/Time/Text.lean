import ChainKit.Text.Blank
import ChainKit.Text.Decimal
import ChainKit.Text.Split
import ChainKit.Time.Calendar

namespace ChainKit.TimeText

def minMicros : Int := -8334601228800000000

def maxMicros : Int := 8210266876799999999

def minYear : Int := -262143

def maxYear : Int := 262142

def number? (limit : Nat) (cs : List Char) : Option (Nat × List Char) :=
  let ds := (cs.take limit).takeWhile Char.isDigit
  if ds = [] then none else some (Decimal.natOfDigits ds, cs.drop ds.length)

/-- Reads a year after blanks: any number of digits after a sign, else at most four. -/
def year? (cs : List Char) : Option (Int × List Char) :=
  match Text.trimStart cs with
  | '-' :: cs => (number? cs.length cs).map fun (n, cs) => (-(n : Int), cs)
  | '+' :: cs => (number? cs.length cs).map fun (n, cs) => ((n : Int), cs)
  | cs => (number? 4 cs).map fun (n, cs) => ((n : Int), cs)

def field? (low high : Nat) (cs : List Char) : Option (Nat × List Char) :=
  (number? 2 (Text.trimStart cs)).filter fun (n, _) => low ≤ n ∧ n ≤ high

def mark? (c : Char) : List Char → Option (List Char)
  | d :: cs => if d = c then some cs else none
  | [] => none

/-- Reads an optional fraction of a second in nanoseconds. Digits after the ninth are skipped. -/
def fraction? : List Char → Option (Nat × List Char)
  | '.' :: cs =>
    let ds := (cs.take 9).takeWhile Char.isDigit
    if ds = [] then none
    else
      some (Decimal.natOfDigits ds * 10 ^ (9 - ds.length),
        (cs.drop ds.length).dropWhile Char.isDigit)
  | cs => some (0, cs)

def microsOf (date : Calendar.Date) (hour minute second nanos : Nat) : Int :=
  ((Calendar.dayOfDate date - Calendar.epochDay) * 86400 +
    (hour * 3600 + minute * 60 + second : Nat)) * 1000000 + (nanos / 1000 : Nat)

/-- Reads a time, truncated to microseconds. Second 60 is the second after second 59. -/
def parse? (cs : List Char) : Option Int := do
  let (year, cs) ← year? cs
  let (month, cs) ← field? 1 12 (← mark? '-' cs)
  let (day, cs) ← field? 1 31 (← mark? '-' cs)
  let (hour, cs) ← field? 0 23 (← mark? 'T' cs)
  let (minute, cs) ← field? 0 59 (← mark? ':' cs)
  let (second, cs) ← field? 0 60 (← mark? ':' cs)
  let (nanos, cs) ← fraction? cs
  let date : Calendar.Date := ⟨year, month, day⟩
  if cs = [] ∧ minYear ≤ year ∧ year ≤ maxYear ∧ date.isValid then
    some (microsOf date hour minute second nanos)
  else none

/-- A year in four digits, or with a sign and at least four digits outside 0 to 9999. -/
def yearChars (year : Int) : List Char :=
  if 0 ≤ year ∧ year ≤ 9999 then Decimal.padded 4 year.natAbs
  else (if year < 0 then '-' else '+') :: Decimal.padded 4 year.natAbs

/-- The text of a microsecond count: three decimals if they suffice, else six. -/
def chars (micros : Int) : List Char :=
  let second := micros / 1000000
  let fraction := (micros % 1000000).toNat
  let date := Calendar.dateOfDay (second / 86400 + Calendar.epochDay)
  let s := (second % 86400).toNat
  yearChars date.year ++ '-' :: Decimal.padded 2 date.month ++ '-' :: Decimal.padded 2 date.day ++
    'T' :: Decimal.padded 2 (s / 3600) ++ ':' :: Decimal.padded 2 (s / 60 % 60) ++
    ':' :: Decimal.padded 2 (s % 60) ++
    '.' :: (if fraction % 1000 = 0 then Decimal.padded 3 (fraction / 1000)
      else Decimal.padded 6 fraction)

def isRepresentable (micros : Int) : Bool := minMicros ≤ micros && micros ≤ maxMicros

def text? (micros : Int) : Option String :=
  if isRepresentable micros then some (String.ofList (chars micros)) else none

end ChainKit.TimeText
