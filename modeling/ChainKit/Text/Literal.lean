namespace ChainKit.Text

def hexDigits (n : Nat) : String := String.ofList (Nat.toDigits 16 n)

/-- A character between single quotes; quotes, backslashes and control characters are escaped. -/
def charLiteral (c : Char) : String :=
  let body :=
    if c = '\x00' then "\\0"
    else if c = '\t' then "\\t"
    else if c = '\r' then "\\r"
    else if c = '\n' then "\\n"
    else if c = '\'' then "\\'"
    else if c = '\\' then "\\\\"
    else if c.toNat < 32 ∨ (127 ≤ c.toNat ∧ c.toNat < 161) ∨ c.toNat = 173 then
      "\\u\x7b" ++ hexDigits c.toNat ++ "\x7d"
    else c.toString
  "'" ++ body ++ "'"

end ChainKit.Text
