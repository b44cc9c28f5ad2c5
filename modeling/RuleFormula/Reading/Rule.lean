import RuleFormula.Formula.Debug
import RuleFormula.Reading.Expression

/-!
# Rules

A rule has a condition and a conclusion, written with the implication sign between them. The first
implication sign of a text divides it; each side is then read as a formula on its own.
-/

namespace RuleFormula

/-- A condition and what follows from it. -/
structure Rule where
  condition : Formula
  conclusion : Formula
deriving DecidableEq

namespace Rule

/-- How a rule is written. -/
def text (r : Rule) : String :=
  r.condition.name ++ " " ++ Keyword.implies.text ++ " " ++ r.conclusion.name

/-- The two sides of a rule in a report. -/
def debugText (r : Rule) : String :=
  "Rule \x7b condition: " ++ r.condition.debugText ++ ", conclusion: " ++ r.conclusion.debugText ++
    " \x7d"

instance : ToString Rule := ⟨text⟩

variable {m : Type → Type} [Monad m]

/-- Whether a token is the implication sign. -/
def isSign (t : Token) : Bool := t.keyword? = some .implies

/-- Reads a rule from tokens. -/
def readTokens (lookahead : Lookahead) (ask : String → m (Option Formula)) (ts : List Token) :
    ExceptT ParseError m Rule :=
  match ts, ts.takeWhile (!isSign ·), ts.dropWhile (!isSign ·) with
  | [], _, _ => throw .empty
  | _, _, [] => throw .missingImplication
  | _, [], sign :: _ => throw (.unexpected sign.start Keyword.implies.text)
  | _, _, [_] => throw .unexpectedEnd
  | _, before, _ :: after => do
    let condition ← Reading.whole lookahead ask before
    let conclusion ← Reading.whole lookahead ask after
    pure ⟨condition, conclusion⟩

/-- Reads a rule, asking a resolver that acts in a monad. -/
def readM (lookahead : Lookahead) (ask : String → m (Option Formula)) (text : String) :
    ExceptT ParseError m Rule :=
  readTokens lookahead ask (Token.tokenize text.toList)

/-- Reads a rule. -/
def read (lookahead : Lookahead) (resolve : String → Option Formula) (text : String) :
    Except ParseError Rule :=
  (readM (m := Id) lookahead (fun name => pure (resolve name)) text).run.run

end Rule

end RuleFormula
