/-
# Quoted text

A text is quoted for a message: it stands between quotation marks, and what could not be seen
or would end the quotation is escaped.
-/
import TreeGrammar.Text.Unseen

namespace TreeGrammar

/-- The hexadecimal digits of a number. -/
def hexText (n : Nat) : String := String.ofList (Nat.toDigits 16 n)

/-- A character of a quoted text. -/
def quotedChar (c : Char) : String :=
  if c = '"' then "\\\""
  else if c = '\\' then "\\\\"
  else if c = '\n' then "\\n"
  else if c = '\r' then "\\r"
  else if c = '\t' then "\\t"
  else if c.toNat = 0 then "\\0"
  else if isUnseen c then
    "\\u\x7b" ++ hexText c.toNat ++ "\x7d"
  else c.toString

/-- A text between quotation marks. -/
def quoted (s : String) : String :=
  "\"" ++ String.join (s.toList.map quotedChar) ++ "\""

end TreeGrammar
