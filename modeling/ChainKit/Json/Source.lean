import ChainKit.Json.Basic

namespace ChainKit.Json

/-- A JSON text as written. A number beyond the range and a string with half a surrogate pair are
`none`. -/
inductive Source where
  | null
  | bool (value : Bool)
  | num (value : Option Number)
  | str (value : Option String)
  | arr (items : List Source)
  | obj (members : List (Option String × Source))
deriving Inhabited

namespace Source

mutual

/-- The value of a text that nests at most `levels` deep. -/
def toJson? (levels : Nat) : Source → Option Json
  | .null => some .null
  | .bool b => some (.bool b)
  | .num n => n.map .num
  | .str s => s.map .str
  | .arr items =>
    match levels with
    | 0 => none
    | levels + 1 => (itemsToJson? levels items).map .arr
  | .obj members =>
    match levels with
    | 0 => none
    | levels + 1 => (membersToJson? levels [] members).map .obj

def itemsToJson? (levels : Nat) : List Source → Option (List Json)
  | [] => some []
  | s :: rest =>
    match toJson? levels s with
    | none => none
    | some v => (itemsToJson? levels rest).map (v :: ·)

/-- A repeated member keeps its first place and takes the last value. -/
def membersToJson? (levels : Nat) (done : List (String × Json)) :
    List (Option String × Source) → Option (List (String × Json))
  | [] => some done
  | (key, s) :: rest =>
    match key, toJson? levels s with
    | some k, some v => membersToJson? levels (insert done k v) rest
    | _, _ => none

end

mutual

def ofJson : Json → Source
  | .null => .null
  | .bool b => .bool b
  | .num n => .num (some n)
  | .str s => .str (some s)
  | .arr items => .arr (ofItems items)
  | .obj members => .obj (ofMembers members)

def ofItems : List Json → List Source
  | [] => []
  | v :: rest => ofJson v :: ofItems rest

def ofMembers : List (String × Json) → List (Option String × Source)
  | [] => []
  | (k, v) :: rest => (some k, ofJson v) :: ofMembers rest

end

end Source
end ChainKit.Json
