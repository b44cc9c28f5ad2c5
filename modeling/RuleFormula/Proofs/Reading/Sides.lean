import Mathlib.Data.List.TakeWhile
import RuleFormula.Proofs.Reading.Derived
import RuleFormula.Proofs.Reading.Elsewhere

/-!
# The two sides of a rule

A rule is read as its sides are read alone: the formulas of both sides are the ones that these texts
have, and an error in a side is the one of its text, at its place in the rule (`read_sides`). The
names in a side end within it, whatever the lookahead.
-/

namespace RuleFormula

open Token

namespace Rule

variable {lookahead : Lookahead} {resolve : String → Option Formula} {text : String}
  {before after : List Token} {sign : Token}

/-- No token of the text is the implication sign. -/
def Signless (text : String) : Prop := ∀ t ∈ tokenize text.toList, t.keyword? ≠ some .implies

/-- The rule of two sides. An error in the condition comes before one in the conclusion. -/
def ofSides (condition conclusion : Except ParseError Formula) : Except ParseError Rule := do
  let condition ← condition
  let conclusion ← conclusion
  pure ⟨condition, conclusion⟩

/-- Tokens of which none is the implication sign are passed over in the search for it. -/
lemma not_isSign {ts : List Token} (h : ∀ t ∈ ts, t.keyword? ≠ some .implies) :
    ∀ t ∈ ts, (!isSign t) = true := by
  intro t ht
  rw [isSign, decide_eq_false (h t ht), Bool.not_false]

/-- The sides are read one after the other, and the first error is reported. -/
lemma run_sides (x y : ExceptT ParseError Id Formula) :
    (do
      let condition ← x
      let conclusion ← y
      pure ⟨condition, conclusion⟩ : ExceptT ParseError Id Rule).run.run =
      ofSides x.run.run y.run.run := by
  simp only [ExceptT.run_bind, Id.run_bind]
  cases x.run.run with
  | error e => rfl
  | ok condition =>
    simp only [Id.run_bind]
    cases y.run.run <;> rfl

/-- What is read of the tokens before and after the first implication sign. -/
lemma read_eq_of_sign (ht : tokenize text.toList = before ++ sign :: after)
    (hs : sign.keyword? = some .implies) (hb : ∀ t ∈ before, t.keyword? ≠ some .implies) :
    read lookahead resolve text =
      if before = [] then .error (.unexpected sign.start Keyword.implies.text)
      else if after = [] then .error .unexpectedEnd
      else ofSides (Reading.wholeOf lookahead resolve before)
        (Reading.wholeOf lookahead resolve after) := by
  have here : ¬ (!isSign sign) = true := by
    rw [isSign, decide_eq_true hs]
    decide
  have first : (before ++ sign :: after).takeWhile (!isSign ·) = before := by
    rw [List.takeWhile_append_of_pos (not_isSign hb),
      List.takeWhile_cons_of_neg (p := (!isSign ·)) here, List.append_nil]
  have last : (before ++ sign :: after).dropWhile (!isSign ·) = sign :: after := by
    rw [List.dropWhile_append_of_pos (not_isSign hb),
      List.dropWhile_cons_of_neg (p := (!isSign ·)) here]
  unfold read readM readTokens
  rw [ht, first, last]
  cases before with
  | nil => rfl
  | cons t before =>
    cases after with
    | nil => rfl
    | cons u after =>
      rw [if_neg (List.cons_ne_nil _ _), if_neg (List.cons_ne_nil _ _)]
      exact run_sides _ _

/-- Without an implication sign there is no rule. -/
lemma read_eq_of_signless (h : Signless text) :
    read lookahead resolve text =
      .error (if tokenize text.toList = [] then .empty else .missingImplication) := by
  have last : (tokenize text.toList).dropWhile (!isSign ·) = [] :=
    List.dropWhile_eq_nil_iff.2 (not_isSign h)
  unfold read readM readTokens
  rw [last]
  cases tokenize text.toList with
  | nil => rfl
  | cons t ts => rfl

/-- The tokens of a rule are those of its sides, with the sign between them. -/
lemma tokenize_sides (a b : String) : ∃ gap, tokenize (a ++ " => " ++ b).toList =
    tokenize a.toList ++ ⟨gap, a.utf8ByteSize + 1, Keyword.implies.text.toList⟩ ::
      indent [' '] (tokenizeFrom (a.utf8ByteSize + 4) b.toList) := by
  have text : (a ++ " => " ++ b).toList =
      a.toList ++ ' ' :: (Keyword.implies.text.toList ++ ' ' :: b.toList) := by
    rw [String.toList_append, String.toList_append, List.append_assoc]
    rfl
  have bounded : Bounded (' ' :: (Keyword.implies.text.toList ++ ' ' :: b.toList)) :=
    bounded_blank rfl
  obtain ⟨gap, _, e⟩ := tokenizeFrom_append_bounded bounded 0 a.toList
  refine ⟨gap ++ [' '], ?_⟩
  rw [text, tokenize, e, tokenizeFrom_spaced, Nat.zero_add, byteLength_toList]
  rfl

/-- A rule that is written as a condition without an implication sign, the sign, and a conclusion
is read as its sides are. It is an error when one of them has no tokens, and errors in the condition
come before those in the conclusion, which lie after the condition and the sign. A text without the
sign is no rule. -/
theorem read_sides (lookahead : Lookahead) (resolve : String → Option Formula) :
    (∀ a b, Signless a → read lookahead resolve (a ++ " => " ++ b) =
      if tokenize a.toList = [] then .error (.unexpected (a.utf8ByteSize + 1) "=>")
      else if tokenize b.toList = [] then .error .unexpectedEnd
      else ofSides (Formula.read lookahead resolve a)
        ((Formula.read lookahead resolve b).mapError (.shift (a.utf8ByteSize + 4)))) ∧
    (∀ text, Signless text → read lookahead resolve text =
      .error (if tokenize text.toList = [] then .empty else .missingImplication)) := by
  refine ⟨fun a b ha => ?_, fun text h => read_eq_of_signless h⟩
  obtain ⟨gap, tokens⟩ := tokenize_sides a b
  rw [read_eq_of_sign tokens (keyword?_eq .implies _ _) ha]
  by_cases first : tokenize a.toList = []
  · rw [if_pos first, if_pos first]
    rfl
  rw [if_neg first, if_neg first]
  have last : indent [' '] (tokenizeFrom (a.utf8ByteSize + 4) b.toList) = [] ↔
      tokenize b.toList = [] := indent_eq_nil_iff.trans tokenizeFrom_eq_nil_iff
  by_cases second : tokenize b.toList = []
  · rw [if_pos second, if_pos (last.2 second)]
  · rw [if_neg second, if_neg (mt last.1 second), Reading.wholeOf_indent,
      Reading.wholeOf_tokenizeFrom, Formula.read_eq_wholeOf first, Formula.read_eq_wholeOf second]

/-- An error in the conclusion, after a condition in which a character takes two bytes. -/
theorem read_sides_error_in_conclusion :
    Signless "é" ∧ read .longest (resolveNames [.atom ⟨0, "é", true⟩]) "é => AND" =
      .error (.unexpected 6 "AND") := by
  have signless : Signless "é" := by
    unfold Signless
    decide
  have condition : Formula.read .longest (resolveNames [.atom ⟨0, "é", true⟩]) "é" =
      .ok (.atom ⟨0, "é", true⟩) := by
    have tokens : tokenize "é".toList = [⟨[], 0, ['é']⟩] := by decide
    refine Reading.read_of_isName tokens rfl ⟨Nat.le_refl 0, rfl, fun _ _ => nofun, ?_⟩
    exact fun _ k hk hn => absurd hn (Nat.not_lt.2 hk)
  have conclusion : Formula.read .longest (resolveNames [.atom ⟨0, "é", true⟩]) "AND" =
      .error (.unexpected 0 "AND") := by
    have tokens : tokenize "AND".toList = [⟨[], 0, ['A', 'N', 'D']⟩] := by decide
    rw [Formula.read_eq_wholeOf (tokens ▸ List.cons_ne_nil _ _), tokens, Reading.wholeOf_eq,
      Reading.chainOf_eq, Reading.operandOf_or, Reading.chainOf_eq, Reading.operandOf_and,
      Reading.termOf_keyword _ _ _ (k := .and) rfl (by decide)]
  have sides := (read_sides .longest (resolveNames [.atom ⟨0, "é", true⟩])).1 "é" "AND" signless
  rw [condition, conclusion, if_neg (by decide), if_neg (by decide)] at sides
  exact ⟨signless, sides⟩

end Rule

end RuleFormula
