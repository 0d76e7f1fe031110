import ChainKit.Abi.Config.Basic
import ChainKit.Json.Record

namespace ChainKit.Abi.Config

open Json (Source Record)

/-- Reads limits; an absent one takes its default. -/
def ofSource? (s : Source) : Option Config := do
  let r ← Record.ofSource? ["max_depth", "strict_bool", "max_array_len"] s
  let default : Config := {}
  return {
    maxDepth := ← r.optional? "max_depth" default.maxDepth (Source.nat? (2 ^ 64))
    strictBool := ← r.optional? "strict_bool" default.strictBool Source.bool?
    maxArrayLength := ← r.optional? "max_array_len" default.maxArrayLength (Source.nat? (2 ^ 64)) }

def toJson (c : Config) : Json :=
  .obj [("max_depth", .ofNat c.maxDepth), ("strict_bool", .bool c.strictBool),
    ("max_array_len", .ofNat c.maxArrayLength)]

def debug (c : Config) : String :=
  "ContextConfig \x7b max_depth: " ++ toString c.maxDepth ++ ", strict_bool: " ++
    toString c.strictBool ++ ", max_array_len: " ++ toString c.maxArrayLength ++ " \x7d"

end ChainKit.Abi.Config
