import RuleFormula.Formula.Basic
import RuleFormula.Reading.Token

/-!
# Names in a text

The name of a formula may hold spaces, parentheses and keywords, so its end cannot be told from the
text alone. A resolver tells which texts are names, and what they name. Starting at a word, the
spans that end with that word, with the next token, and so on are put to it in turn.
-/

namespace RuleFormula

/-- Which of the spans that a resolver accepts is taken for the name. -/
inductive Lookahead
  /-- The shortest; no longer one is put to the resolver. -/
  | shortest
  /-- The longest; all spans up to the end are put to the resolver. -/
  | longest
deriving DecidableEq, Repr

instance : Inhabited Lookahead := ⟨.shortest⟩

/-- The resolver that knows formulas by their printed names; of formulas with one name it knows the
last. -/
def resolveNames (ps : List Formula) : String → Option Formula :=
  let table := ps.reverse.map fun p => (p.name, p)
  fun name => table.lookup name

variable {m : Type → Type} [Monad m]

/-- Finds the name that begins with `span`, where `ts` are the tokens after it. Gives what is named
and how many of the tokens belong to the name; nothing where no span is accepted. -/
def resolveSpan (lookahead : Lookahead) (ask : String → m (Option Formula)) (span : List Char)
    (ts : List Token) : m (Option (Formula × Nat)) := do
  let found ← ask (String.ofList span)
  let here := found.map fun p => (p, 0)
  if lookahead = .shortest ∧ found.isSome then pure here
  else
    match ts with
    | [] => pure here
    | t :: ts =>
      let later ← resolveSpan lookahead ask (span ++ t.gap ++ t.text) ts
      match later with
      | some (p, n) => pure (some (p, n + 1))
      | none => pure here

end RuleFormula
