import ChainKit.Time.Text

namespace ChainKit

/-- Microseconds since 1970. -/
structure TimePoint where
  micros : Int64
deriving DecidableEq, Repr, Inhabited

/-- Whole seconds since 1970. -/
structure TimePointSec where
  secs : UInt32
deriving DecidableEq, Repr, Inhabited

/-- Half-second slots since 2000. -/
structure BlockTimestamp where
  slot : UInt32
deriving DecidableEq, Repr, Inhabited

namespace Time

inductive Error where
  | malformed (text : String)
  | outOfRange (text : String)
deriving DecidableEq, Repr

def Error.message : Error → String
  | .malformed s => "invalid time string \"" ++ s ++ "\""
  | .outOfRange s => "time \"" ++ s ++ "\" is out of range"

/-- Reads the microseconds of a time; one final `Z` is dropped. -/
def parseMicros (s : String) : Except Error Int :=
  let cs := s.toList
  match TimeText.parse? (if cs.getLast? = some 'Z' then cs.dropLast else cs) with
  | some micros => .ok micros
  | none => .error (.malformed s)

def word? (i : Int) : Option UInt32 :=
  if 0 ≤ i ∧ i < 2 ^ 32 then some (UInt32.ofNat i.toNat) else none

end Time

namespace TimePoint

def ofMicros (i : Int) : TimePoint := ⟨Int64.ofInt i⟩

def isRepresentable (t : TimePoint) : Bool := TimeText.isRepresentable t.micros.toInt

def text? (t : TimePoint) : Option String := TimeText.text? t.micros.toInt

def parse (s : String) : Except Time.Error TimePoint := (Time.parseMicros s).map ofMicros

end TimePoint

namespace TimePointSec

def toMicros (t : TimePointSec) : Int := (t.secs.toNat : Int) * 1000000

def text (t : TimePointSec) : String := String.ofList (TimeText.chars t.toMicros)

/-- Reads a time, truncated to whole seconds. -/
def parse (s : String) : Except Time.Error TimePointSec :=
  match Time.parseMicros s with
  | .error e => .error e
  | .ok micros =>
    match Time.word? (micros / 1000000) with
    | some secs => .ok ⟨secs⟩
    | none => .error (.outOfRange s)

def addSaturating (t : TimePointSec) (secs : UInt32) : TimePointSec :=
  ⟨UInt32.ofNat (min (t.secs.toNat + secs.toNat) (2 ^ 32 - 1))⟩

end TimePointSec

namespace BlockTimestamp

def epochMillis : Int := 946684800000

def toMicros (t : BlockTimestamp) : Int := (epochMillis + (t.slot.toNat : Int) * 500) * 1000

def text (t : BlockTimestamp) : String := String.ofList (TimeText.chars t.toMicros)

/-- Reads a time, truncated to the slot that holds it. -/
def parse (s : String) : Except Time.Error BlockTimestamp :=
  match Time.parseMicros s with
  | .error e => .error e
  | .ok micros =>
    match Time.word? ((micros / 1000 - epochMillis) / 500) with
    | some slot => .ok ⟨slot⟩
    | none => .error (.outOfRange s)

end BlockTimestamp
end ChainKit
