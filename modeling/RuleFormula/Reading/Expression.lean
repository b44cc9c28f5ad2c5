import RuleFormula.Formula.Canonical
import RuleFormula.Reading.Resolver

/-!
# Reading formulas

The grammar of written formulas, over the tokens of a text:

    expression  := conjunction (OR conjunction)*
    conjunction := term (AND term)*
    term        := TRUE | FALSE | ( expression ) | NOT term | name

A name begins with a token that is no keyword and ends where the resolver says. Two or more operands
are combined by the canonical operations, one operand is passed on as it is, and parentheses are
kept around a conjunction or disjunction. Each reader gives the tokens that it leaves, which are
fewer than it got; that is why reading ends. The resolver may act in any monad, so that what it is
asked can be logged.
-/

namespace RuleFormula

/-- Why a text is no formula or no rule. Positions are numbers of bytes. -/
inductive ParseError
  | empty
  | unexpectedEnd
  | unexpected (position : Nat) (found : String)
  | unmatchedParenthesis (position : Nat)
  /-- No span that begins here is a name; the text goes up to the last token. -/
  | unresolved (position : Nat) (text : String)
  | missingImplication
deriving DecidableEq, Repr

namespace ParseError

/-- The wording of each cause. -/
def message : ParseError → String
  | empty => "empty predicate"
  | unexpectedEnd => "unexpected end of input"
  | unexpected position found => s!"unexpected '{found}' at {position}"
  | unmatchedParenthesis position => s!"unmatched parenthesis at {position}"
  | unresolved position text => s!"cannot resolve predicate at {position}: '{text}'"
  | missingImplication => "expected '" ++ Keyword.implies.text ++ "' in rule"

end ParseError

namespace Reading

/-- A formula read from the beginning of `ts`. -/
structure Parsed (ts : List Token) where
  formula : Formula
  rest : List Token
  /-- At least one token was read. -/
  shorter : rest.length < ts.length

/-- Further operands read from the beginning of `ts`. -/
structure Operands (ts : List Token) where
  formulas : List Formula
  rest : List Token
  /-- No token was added. -/
  not_longer : rest.length ≤ ts.length

/-- The connectives; a conjunction is an operand of a disjunction. -/
inductive Connective
  | and
  | or
deriving DecidableEq, Repr

namespace Connective

/-- How the connective is written. -/
def keyword : Connective → Keyword
  | and => .and
  | or => .or

/-- The formula made of two operands or more. -/
def node : Connective → List Formula → Formula
  | and => Formula.conj
  | or => Formula.disj

/-- The readers of one list of tokens call each other in the order of their ranks, from the greater
to the smaller. -/
def rank : Connective → Nat
  | and => 1
  | or => 3

/-- One operand as it is, two or more combined. -/
def combine (c : Connective) (first : Formula) : List Formula → Formula
  | [] => first
  | more => c.node (first :: more)

end Connective

variable {m : Type → Type} [Monad m]

mutual

/-- Reads one term. -/
def term (lookahead : Lookahead) (ask : String → m (Option Formula)) (ts : List Token) :
    ExceptT ParseError m (Parsed ts) :=
  match ts with
  | [] => throw .unexpectedEnd
  | t :: rest =>
    match t.keyword? with
    | some .true => pure ⟨.top, rest, Nat.lt_succ_self _⟩
    | some .false => pure ⟨.bot, rest, Nat.lt_succ_self _⟩
    | some .leftParen => do
      let inner ← chain lookahead ask .or rest
      match left : inner.rest with
      | u :: after =>
        if u.keyword? = some .rightParen then
          pure ⟨inner.formula.grouped, after, by
            have := inner.shorter
            simp only [left, List.length_cons] at this ⊢
            omega⟩
        else throw (.unmatchedParenthesis t.start)
      | [] => throw (.unmatchedParenthesis t.start)
    | some .not => do
      let p ← term lookahead ask rest
      pure ⟨p.formula.negate, p.rest, Nat.lt_succ_of_lt p.shorter⟩
    | some _ => throw (.unexpected t.start (String.ofList t.text))
    | none => do
      match ← ExceptT.lift (resolveSpan lookahead ask t.text rest) with
      | some (p, n) =>
        pure ⟨p, rest.drop n, by
          simp only [List.length_drop, List.length_cons]
          omega⟩
      | none => throw (.unresolved t.start (String.ofList (t.text ++ Token.written rest)))
termination_by (ts.length, 0)
decreasing_by all_goals exact Prod.Lex.left _ _ (Nat.lt_succ_self _)

/-- Reads one operand of a connective. -/
def operand (lookahead : Lookahead) (ask : String → m (Option Formula)) (c : Connective)
    (ts : List Token) : ExceptT ParseError m (Parsed ts) :=
  match c with
  | .and => term lookahead ask ts
  | .or => chain lookahead ask .and ts
termination_by (ts.length, c.rank)
decreasing_by all_goals exact Prod.Lex.right _ (by decide)

/-- Reads one operand of a connective or more, with the connective between them. -/
def chain (lookahead : Lookahead) (ask : String → m (Option Formula)) (c : Connective)
    (ts : List Token) : ExceptT ParseError m (Parsed ts) := do
  let first ← operand lookahead ask c ts
  let more ← further lookahead ask c first.rest
  pure ⟨c.combine first.formula more.formulas, more.rest,
    Nat.lt_of_le_of_lt more.not_longer first.shorter⟩
termination_by (ts.length, c.rank + 1)
decreasing_by
  · exact Prod.Lex.right _ (Nat.lt_succ_self _)
  · exact Prod.Lex.left _ _ first.shorter

/-- Reads further operands of a connective, as long as the connective comes next. -/
def further (lookahead : Lookahead) (ask : String → m (Option Formula)) (c : Connective)
    (ts : List Token) : ExceptT ParseError m (Operands ts) :=
  match ts with
  | [] => pure ⟨[], [], Nat.le_refl _⟩
  | t :: rest =>
    if t.keyword? = some c.keyword then do
      let p ← operand lookahead ask c rest
      let more ← further lookahead ask c p.rest
      pure ⟨p.formula :: more.formulas, more.rest,
        Nat.le_succ_of_le (Nat.le_trans more.not_longer (Nat.le_of_lt p.shorter))⟩
    else pure ⟨[], t :: rest, Nat.le_refl _⟩
termination_by (ts.length, 0)
decreasing_by
  · exact Prod.Lex.left _ _ (Nat.lt_succ_self _)
  · exact Prod.Lex.left _ _ (Nat.lt_succ_of_lt p.shorter)

end

/-- Reads an expression that takes up all tokens. -/
def whole (lookahead : Lookahead) (ask : String → m (Option Formula)) (ts : List Token) :
    ExceptT ParseError m Formula := do
  let p ← chain lookahead ask .or ts
  match p.rest with
  | [] => pure p.formula
  | t :: _ =>
    if t.keyword? = some .rightParen then throw (.unmatchedParenthesis t.start)
    else throw (.unexpected t.start (String.ofList t.text))

end Reading

namespace Formula

/-- Reads a formula, asking a resolver that acts in a monad. -/
def readM {m : Type → Type} [Monad m] (lookahead : Lookahead) (ask : String → m (Option Formula))
    (text : String) : ExceptT ParseError m Formula :=
  match Token.tokenize text.toList with
  | [] => throw .empty
  | ts => Reading.whole lookahead ask ts

/-- Reads a formula. -/
def read (lookahead : Lookahead) (resolve : String → Option Formula) (text : String) :
    Except ParseError Formula :=
  (readM (m := Id) lookahead (fun name => pure (resolve name)) text).run.run

end Formula

end RuleFormula
