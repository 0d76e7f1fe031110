import ChainKit.Json.Source
import ChainKit.Text.Decimal

namespace ChainKit.Json

namespace Source

def string? : Source → Option String
  | .str s => s
  | _ => none

def text? {α ε : Type} (parse : String → Except ε α) (s : Source) : Option α :=
  s.string?.bind fun t => (parse t).toOption

def bool? : Source → Option Bool
  | .bool b => some b
  | _ => none

def nat? (bound : Nat) : Source → Option Nat
  | .num (some (.int i)) => if 0 ≤ i ∧ i < bound then some i.toNat else none
  | _ => none

def list? {α : Type} (item? : Source → Option α) : Source → Option (List α)
  | .arr items => items.mapM item?
  | _ => none

/-- Reads a value that may be `null`. -/
def nullable? {α : Type} (value? : Source → Option α) : Source → Option (Option α)
  | .null => some none
  | s => (value? s).map some

end Source

structure Record where
  fields : List (String × Source)

namespace Record

/-- The members with known names, if none of them is repeated. -/
def knownMembers? (names : List String) :
    List (Option String × Source) → Option (List (String × Source))
  | [] => some []
  | (none, _) :: _ => none
  | (some key, s) :: rest =>
    match knownMembers? names rest with
    | none => none
    | some known =>
      if names.contains key then
        if known.any fun m => m.1 == key then none else some ((key, s) :: known)
      else some known

def ofSource? (names : List String) : Source → Option Record
  | .obj members => (knownMembers? names members).map Record.mk
  | .arr items => if items.length ≤ names.length then some ⟨names.zip items⟩ else none
  | _ => none

variable {α : Type}

def required? (r : Record) (name : String) (read? : Source → Option α) : Option α :=
  (r.fields.lookup name).bind read?

def optional? (r : Record) (name : String) (default : α) (read? : Source → Option α) : Option α :=
  match r.fields.lookup name with
  | some s => read? s
  | none => some default

end Record
end ChainKit.Json
