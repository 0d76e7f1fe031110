import ChainKit.Number.Binary

namespace ChainKit

/-- A JSON number: whole, or a finite double-precision number. -/
inductive Json.Number where
  | int (value : Int)
  | float (value : Binary64)
deriving DecidableEq, Repr

inductive Json where
  | null
  | bool (value : Bool)
  | num (value : Json.Number)
  | str (value : String)
  | arr (items : List Json)
  | obj (members : List (String × Json))
deriving Repr, Inhabited

namespace Json

def member? (members : List (String × Json)) (key : String) : Option Json := members.lookup key

/-- Stores a member, in place of one with the same key or else at the end. -/
def insert (members : List (String × Json)) (key : String) (value : Json) : List (String × Json) :=
  match members with
  | [] => [(key, value)]
  | (k, v) :: rest => if k = key then (k, value) :: rest else (k, v) :: insert rest key value

def ofInt (i : Int) : Json := .num (.int i)

def ofNat (n : Nat) : Json := ofInt n

end Json
end ChainKit
