import RuleFormula.Text.Printable

/-!
# Quoted texts

A text in double quotes. The quote and the backslash follow a backslash; tab, carriage return, line
feed and the null character have letters of their own; other characters that do not print are given
by their code point in hexadecimal digits between braces. A single quote needs no escape.
-/

namespace RuleFormula

namespace Text

/-- The digits of a number to the base 16, in lower case and without leading zeros. -/
def hexadecimal (n : Nat) : String := String.ofList (Nat.toDigits 16 n)

/-- One character of a quoted text. -/
def quotedChar (c : Char) : String :=
  if c = '"' then "\\\""
  else if c = '\\' then "\\\\"
  else if c = '\t' then "\\t"
  else if c = '\r' then "\\r"
  else if c = '\n' then "\\n"
  else if c.toNat = 0 then "\\0"
  else if isPrintable c then c.toString
  else "\\u\x7b" ++ hexadecimal c.toNat ++ "\x7d"

/-- A text in double quotes. -/
def quoted (s : String) : String := "\"" ++ String.join (s.toList.map quotedChar) ++ "\""

end Text

end RuleFormula
