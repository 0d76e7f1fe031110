import ChainKit.Json.Basic
import ChainKit.Number.Shortest
import ChainKit.Text.Literal

namespace ChainKit.Json

/-- A tie goes to the even last digit, powers of ten from -5 to 15 are written positionally, and
whole numbers end in `.0`. -/
def floatLayout : NumeralLayout := ⟨.even, fun e => decide (-5 ≤ e) && decide (e ≤ 15), true⟩

def Number.write : Number → List Char
  | .int i => Decimal.ofInt i
  | .float x => x.write floatLayout

def Number.text (n : Number) : String := String.ofList n.write

def writeChar (c : Char) : List Char :=
  if c = '"' then ['\\', '"']
  else if c = '\\' then ['\\', '\\']
  else if c = '\x08' then ['\\', 'b']
  else if c = '\t' then ['\\', 't']
  else if c = '\n' then ['\\', 'n']
  else if c = '\x0c' then ['\\', 'f']
  else if c = '\r' then ['\\', 'r']
  else if c.toNat < 32 then
    ['\\', 'u', '0', '0', Nat.digitChar (c.toNat / 16), Nat.digitChar (c.toNat % 16)]
  else [c]

def writeString (s : String) : List Char := '"' :: s.toList.flatMap writeChar ++ ['"']

mutual

def write (rest : List Char) : Json → List Char
  | .null => "null".toList ++ rest
  | .bool true => "true".toList ++ rest
  | .bool false => "false".toList ++ rest
  | .num n => n.write ++ rest
  | .str s => writeString s ++ rest
  | .arr items => '[' :: writeItems (']' :: rest) items
  | .obj members => '\x7b' :: writeMembers ('\x7d' :: rest) members

def writeItems (rest : List Char) : List Json → List Char
  | [] => rest
  | [v] => write rest v
  | v :: w :: vs => write (',' :: writeItems rest (w :: vs)) v

def writeMembers (rest : List Char) : List (String × Json) → List Char
  | [] => rest
  | [(k, v)] => writeString k ++ ':' :: write rest v
  | (k, v) :: m :: ms => writeString k ++ ':' :: write (',' :: writeMembers rest (m :: ms)) v

end

def render (v : Json) : String := String.ofList (write [] v)

end ChainKit.Json
