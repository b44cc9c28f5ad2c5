import RuleFormula.Keyword
import RuleFormula.Text.Blank

/-!
# Tokens

A text is read as a list of tokens: each parenthesis, and each longest run of other characters that
are no white space. A token knows the white space before it and where it starts, in bytes of the
UTF-8 text, so that the text from one token to another can be put together again (`Token.written`).
-/

namespace RuleFormula

/-- A parenthesis or a word of a text. -/
structure Token where
  /-- The white space before the token. -/
  gap : List Char
  /-- The number of bytes before the token. -/
  start : Nat
  /-- The characters of the token. -/
  text : List Char
deriving DecidableEq, Repr

/-- The number of bytes of characters in UTF-8. -/
def byteLength : List Char → Nat
  | [] => 0
  | c :: cs => c.utf8Size + byteLength cs

/-- Whether a character is a token by itself. -/
def isParenthesis (c : Char) : Bool := c = '(' || c = ')'

namespace Token

/-- The number of bytes up to the end of the token. -/
def stop (t : Token) : Nat := t.start + byteLength t.text

/-- The keyword that the token is, if it is one. -/
def keyword? (t : Token) : Option Keyword := Keyword.ofText? t.text

/-- Whether the token takes a character in front of it as its first one. -/
def isOpen (t : Token) : Bool := t.gap.isEmpty && !t.text.all isParenthesis

/-- The tokens of a text, given its first character, the bytes before it, and the tokens of what
follows. -/
def consChar (c : Char) (start : Nat) (ts : List Token) : List Token :=
  if Text.isBlank c then
    match ts with
    | [] => []
    | t :: ts => { t with gap := c :: t.gap } :: ts
  else
    match ts with
    | [] => [⟨[], start, [c]⟩]
    | t :: ts =>
      if !isParenthesis c && t.isOpen then ⟨[], start, c :: t.text⟩ :: ts
      else ⟨[], start, [c]⟩ :: t :: ts

/-- The tokens of a text that has `start` bytes before it. -/
def tokenizeFrom (start : Nat) : List Char → List Token
  | [] => []
  | c :: cs => consChar c start (tokenizeFrom (start + c.utf8Size) cs)

/-- The tokens of a text. -/
def tokenize (cs : List Char) : List Token := tokenizeFrom 0 cs

/-- The tokens of a text with the white space before each. -/
def written (ts : List Token) : List Char := ts.flatMap fun t => t.gap ++ t.text

end Token

end RuleFormula
