import RuleFormula.Proofs.Reading.Grammar
import RuleFormula.Proofs.Reading.Lexemes
import RuleFormula.Proofs.Reading.Printed

/-!
# Tokens elsewhere in a text

What is read of tokens does not depend on the place of these tokens in a text. With more bytes
before them they are read as the same formula, or the same error is found as many bytes later
(`wholeOf_shift`); white space before them makes no difference (`wholeOf_indent`). So a part of a
text is read as it is when it is a text of its own (`wholeOf_tokenizeFrom`).
-/

namespace RuleFormula

open Token

/-- The same error with more bytes before it. -/
def ParseError.shift (n : Nat) : ParseError → ParseError
  | empty => empty
  | unexpectedEnd => unexpectedEnd
  | unexpected position found => unexpected (n + position) found
  | unmatchedParenthesis position => unmatchedParenthesis (n + position)
  | unresolved position text => unresolved (n + position) text
  | missingImplication => missingImplication

/-- It does not matter for a text to have tokens where it starts. -/
lemma tokenizeFrom_eq_nil_iff {start : Nat} {xs : List Char} :
    tokenizeFrom start xs = [] ↔ tokenize xs = [] := by
  rw [tokenize, ← Nat.add_zero start, tokenizeFrom_shift, List.map_eq_nil_iff]

namespace Reading

variable {lookahead : Lookahead} {resolve : String → Option Formula} {α β : Type} {n : Nat}
  {t : Token} {ts rest : List Token} {c : Connective} {gap : List Char}

/-! ## More bytes before the tokens -/

/-- What a reader ends with when there are more bytes before the tokens. -/
def shifted (n : Nat) : Except ParseError (α × List Token) → Except ParseError (α × List Token)
  | .ok (x, rest) => .ok (x, rest.map (Token.shift n))
  | .error e => .error (e.shift n)

/-- A formula that is read does not depend on the place, only the tokens left do. -/
lemma shifted_ok (x : α) (rest : List Token) :
    shifted n (.ok (x, rest)) = .ok (x, rest.map (Token.shift n)) := rfl

/-- What is done with a formula that is read may be done before or after the move. -/
lemma shifted_map (f : α → β) (r : Except ParseError (α × List Token)) :
    shifted n (r.map fun p => (f p.1, p.2)) = (shifted n r).map fun p => (f p.1, p.2) := by
  cases r <;> rfl

/-- A token is the same keyword everywhere. -/
lemma keyword?_shift (n : Nat) (t : Token) : (t.shift n).keyword? = t.keyword? := rfl

/-- The resolver is asked about the same spans everywhere. -/
lemma spanOf_shift (n : Nat) (span : List Char) (ts : List Token) :
    spanOf lookahead resolve span (ts.map (Token.shift n)) =
      spanOf lookahead resolve span ts := by
  induction ts generalizing span with
  | nil => rfl
  | cons t ts ih =>
    have later := ih (span ++ t.gap ++ t.text)
    rw [List.map_cons, spanOf_cons, spanOf_cons, ← later]
    rfl

variable (lookahead resolve n) in
/-- All readers of tokens find the same when there are more bytes before them. -/
structure Shifts (ts : List Token) : Prop where
  term : termOf lookahead resolve (ts.map (Token.shift n)) =
    shifted n (termOf lookahead resolve ts)
  operand (c : Connective) : operandOf lookahead resolve c (ts.map (Token.shift n)) =
    shifted n (operandOf lookahead resolve c ts)
  chain (c : Connective) : chainOf lookahead resolve c (ts.map (Token.shift n)) =
    shifted n (chainOf lookahead resolve c ts)
  further (c : Connective) : furtherOf lookahead resolve c (ts.map (Token.shift n)) =
    shifted n (furtherOf lookahead resolve c ts)

/-- A term is read alike everywhere, if shorter lists of tokens are. -/
lemma termOf_shift
    (ih : ∀ us : List Token, us.length < ts.length → Shifts lookahead resolve n us) :
    termOf lookahead resolve (ts.map (Token.shift n)) =
      shifted n (termOf lookahead resolve ts) := by
  cases ts with
  | nil =>
    rw [List.map_nil, termOf_nil]
    rfl
  | cons t ts =>
    have inner := ih ts (Nat.lt_succ_self _)
    rw [List.map_cons]
    cases hk : t.keyword? with
    | none =>
      have span : spanOf lookahead resolve (t.shift n).text (ts.map (Token.shift n)) =
          spanOf lookahead resolve t.text ts := spanOf_shift n t.text ts
      rw [termOf_name _ _ _ hk, termOf_name _ _ _ (t := t.shift n) hk, span, written_map_shift]
      cases spanOf lookahead resolve t.text ts with
      | none => rfl
      | some found =>
        dsimp only
        rw [← List.map_drop]
        rfl
    | some k =>
      cases k with
      | true =>
        rw [termOf_true _ _ _ hk, termOf_true _ _ _ (t := t.shift n) hk]
        rfl
      | false =>
        rw [termOf_false _ _ _ hk, termOf_false _ _ _ (t := t.shift n) hk]
        rfl
      | not =>
        rw [termOf_not _ _ _ hk, termOf_not _ _ _ (t := t.shift n) hk, inner.term, shifted_map]
      | leftParen =>
        rw [termOf_leftParen _ _ _ hk, termOf_leftParen _ _ _ (t := t.shift n) hk, inner.chain]
        cases chainOf lookahead resolve .or ts with
        | error e => rfl
        | ok read =>
          obtain ⟨p, after⟩ := read
          have next : (after.map (Token.shift n)).head?.bind keyword? =
              after.head?.bind keyword? := by
            cases after <;> rfl
          rw [shifted_ok]
          dsimp only
          rw [next]
          split
          · rw [shifted_ok, List.map_tail]
          · rfl
      | _ =>
        rw [termOf_keyword _ _ _ hk (by decide),
          termOf_keyword _ _ _ (t := t.shift n) hk (by decide)]
        rfl

/-- Operands with a connective between them are read alike everywhere, if shorter lists of tokens
are. -/
lemma chainOf_shift
    (ih : ∀ us : List Token, us.length < ts.length → Shifts lookahead resolve n us)
    (first : operandOf lookahead resolve c (ts.map (Token.shift n)) =
      shifted n (operandOf lookahead resolve c ts)) :
    chainOf lookahead resolve c (ts.map (Token.shift n)) =
      shifted n (chainOf lookahead resolve c ts) := by
  rw [chainOf_eq, chainOf_eq, first]
  cases h : operandOf lookahead resolve c ts with
  | error e => rfl
  | ok read =>
    obtain ⟨p, rest⟩ := read
    rw [shifted_ok]
    dsimp only
    rw [(ih rest (length_rest_of_operandOf h)).further, shifted_map (c.combine p)]

/-- Further operands are read alike everywhere, if shorter lists of tokens are. -/
lemma furtherOf_shift
    (ih : ∀ us : List Token, us.length < ts.length → Shifts lookahead resolve n us) :
    furtherOf lookahead resolve c (ts.map (Token.shift n)) =
      shifted n (furtherOf lookahead resolve c ts) := by
  cases ts with
  | nil =>
    rw [List.map_nil, furtherOf_nil]
    rfl
  | cons t ts =>
    rw [List.map_cons, furtherOf_cons, furtherOf_cons, keyword?_shift]
    split
    · rw [(ih ts (Nat.lt_succ_self _)).operand]
      cases h : operandOf lookahead resolve c ts with
      | error e => rfl
      | ok read =>
        obtain ⟨p, rest⟩ := read
        rw [shifted_ok]
        dsimp only
        rw [(ih rest (Nat.lt_succ_of_lt (length_rest_of_operandOf h))).further,
          shifted_map (p :: ·)]
    · rfl

/-- All readers find the same everywhere, by the number of tokens. -/
lemma shifts (ts : List Token) : Shifts lookahead resolve n ts := by
  -- among the readers of one list of tokens from terms up to disjunctions
  have ih (us : List Token) (_ : us.length < ts.length) : Shifts lookahead resolve n us := shifts us
  have conjunct : operandOf lookahead resolve .and (ts.map (Token.shift n)) =
      shifted n (operandOf lookahead resolve .and ts) := by
    rw [operandOf_and, operandOf_and, termOf_shift ih]
  have operand (c : Connective) : operandOf lookahead resolve c (ts.map (Token.shift n)) =
      shifted n (operandOf lookahead resolve c ts) := by
    cases c with
    | and => exact conjunct
    | or => rw [operandOf_or, operandOf_or, chainOf_shift ih conjunct]
  exact ⟨termOf_shift ih, operand, fun c => chainOf_shift ih (operand c),
    fun c => furtherOf_shift ih⟩
termination_by ts.length

/-- Whole token lists are read as the same formula, or with the same error further on. -/
theorem wholeOf_shift (n : Nat) (ts : List Token) :
    wholeOf lookahead resolve (ts.map (Token.shift n)) =
      (wholeOf lookahead resolve ts).mapError (ParseError.shift n) := by
  rw [wholeOf_eq, wholeOf_eq, (shifts ts).chain]
  cases chainOf lookahead resolve .or ts with
  | error e => rfl
  | ok read =>
    obtain ⟨p, rest⟩ := read
    cases rest with
    | nil => rfl
    | cons t rest =>
      rw [shifted_ok, List.map_cons]
      dsimp only
      rw [keyword?_shift]
      split <;> rfl

/-! ## White space before the tokens -/

/-- White space before an expression does not matter to it. -/
lemma chainOf_indent (c : Connective) (gap : List Char) (ts : List Token) :
    chainOf lookahead resolve c (indent gap ts) = chainOf lookahead resolve c ts := by
  rw [chainOf_eq, chainOf_eq, operandOf_indent]

/-- White space before a text does not matter to it. -/
lemma wholeOf_indent (gap : List Char) (ts : List Token) :
    wholeOf lookahead resolve (indent gap ts) = wholeOf lookahead resolve ts := by
  rw [wholeOf_eq, wholeOf_eq, chainOf_indent]

/-- A part of a text is read as it is when it is a text of its own. -/
theorem wholeOf_tokenizeFrom (n : Nat) (xs : List Char) :
    wholeOf lookahead resolve (tokenizeFrom n xs) =
      (wholeOf lookahead resolve (tokenize xs)).mapError (ParseError.shift n) := by
  rw [← wholeOf_shift, tokenize, ← tokenizeFrom_shift, Nat.add_zero]

/-- Changing errors changes no result. -/
lemma mapError_eq_ok_iff {ε ε' : Type} {f : ε → ε'} {x : Except ε α} {a : α} :
    x.mapError f = .ok a ↔ x = .ok a := by
  cases x with
  | error _ => exact ⟨nofun, nofun⟩
  | ok _ => exact ⟨fun h => by cases h; rfl, fun h => by cases h; rfl⟩

/-- A part of a text that is read as an expression is a formula by itself. -/
lemma read_of_derives_from {xs : List Char} {e : Tree}
    (h : Derives lookahead resolve (.chain .or) (tokenizeFrom n xs) e []) :
    Formula.read lookahead resolve (String.ofList xs) = .ok e.value := by
  have whole := wholeOf_eq_ok_iff.2 ⟨e, h, rfl⟩
  rw [wholeOf_tokenizeFrom, mapError_eq_ok_iff] at whole
  rw [read_eq_ok_iff, String.toList_ofList]
  exact wholeOf_eq_ok_iff.1 whole

end Reading

/-- A text that has tokens is read as they are. -/
lemma Formula.read_eq_wholeOf {lookahead : Lookahead} {resolve : String → Option Formula}
    {text : String} (h : tokenize text.toList ≠ []) :
    read lookahead resolve text = Reading.wholeOf lookahead resolve (tokenize text.toList) := by
  rw [read_eq]
  split
  · next e => exact absurd e h
  · rfl

end RuleFormula
