import RuleFormula.Reading.Rule

/-!
# Reading with a resolver that only answers

For a resolver that is a plain function the readers are plain functions too. `termOf`, `chainOf` and
`furtherOf` are what they compute, without the proofs that tokens were used up, and each is given by
one equation for each way in which its tokens may begin.
-/

namespace RuleFormula

namespace Reading

/-- The formula and the tokens after it. -/
def Parsed.result {ts : List Token} (p : Parsed ts) : Formula × List Token := (p.formula, p.rest)

/-- The operands and the tokens after them. -/
def Operands.result {ts : List Token} (p : Operands ts) : List Formula × List Token :=
  (p.formulas, p.rest)

variable (lookahead : Lookahead) (resolve : String → Option Formula)

/-- The name that begins with `span`, as a function of the resolver. -/
def spanOf (span : List Char) (ts : List Token) : Option (Formula × Nat) :=
  (resolveSpan (m := Id) lookahead (fun name => pure (resolve name)) span ts).run

/-- What the reader of terms computes. -/
def termOf (ts : List Token) : Except ParseError (Formula × List Token) :=
  (term (m := Id) lookahead (fun name => pure (resolve name)) ts).run.run.map Parsed.result

/-- What the reader of operands computes. -/
def operandOf (c : Connective) (ts : List Token) : Except ParseError (Formula × List Token) :=
  (operand (m := Id) lookahead (fun name => pure (resolve name)) c ts).run.run.map Parsed.result

/-- What the reader of operands with a connective between them computes. -/
def chainOf (c : Connective) (ts : List Token) : Except ParseError (Formula × List Token) :=
  (chain (m := Id) lookahead (fun name => pure (resolve name)) c ts).run.run.map Parsed.result

/-- What the reader of further operands computes. -/
def furtherOf (c : Connective) (ts : List Token) : Except ParseError (List Formula × List Token) :=
  (further (m := Id) lookahead (fun name => pure (resolve name)) c ts).run.run.map Operands.result

/-- What the reader of whole token lists computes. -/
def wholeOf (ts : List Token) : Except ParseError Formula :=
  (whole (m := Id) lookahead (fun name => pure (resolve name)) ts).run.run

/-! ## Names -/

/-- Where no tokens are left, the span itself is the only one put to the resolver. -/
theorem spanOf_nil (span : List Char) :
    spanOf lookahead resolve span [] = (resolve (String.ofList span)).map fun p => (p, 0) := by
  unfold spanOf
  rw [resolveSpan]
  cases lookahead <;> cases resolve (String.ofList span) <;> simp

/-- Under the shortest lookahead an accepted span ends the search; else a later one is preferred. -/
theorem spanOf_cons (span : List Char) (t : Token) (ts : List Token) :
    spanOf lookahead resolve span (t :: ts) =
      if lookahead = .shortest ∧ (resolve (String.ofList span)).isSome then
        (resolve (String.ofList span)).map fun p => (p, 0)
      else
        match spanOf lookahead resolve (span ++ t.gap ++ t.text) ts with
        | some (p, n) => some (p, n + 1)
        | none => (resolve (String.ofList span)).map fun p => (p, 0) := by
  unfold spanOf
  rw [resolveSpan]
  simp only [Id.run_bind, Id.run_pure]
  split
  · rfl
  · simp only [Id.run_bind]
    cases (resolveSpan (m := Id) lookahead (fun name => pure (resolve name))
      (span ++ t.gap ++ t.text) ts).run with
    | none => rfl
    | some found => rfl

/-! ## Terms -/

/-- No term begins where the tokens end. -/
theorem termOf_nil : termOf lookahead resolve [] = .error .unexpectedEnd := by
  unfold termOf
  rw [term]
  rfl

/-- One keyword is the formula that holds of every item. -/
theorem termOf_true {t : Token} (rest : List Token) (h : t.keyword? = some .true) :
    termOf lookahead resolve (t :: rest) = .ok (.top, rest) := by
  unfold termOf
  rw [term]
  simp only [h]
  rfl

/-- One keyword is the formula that holds of no item. -/
theorem termOf_false {t : Token} (rest : List Token) (h : t.keyword? = some .false) :
    termOf lookahead resolve (t :: rest) = .ok (.bot, rest) := by
  unfold termOf
  rw [term]
  simp only [h]
  rfl

/-- A negation takes the next term. -/
theorem termOf_not {t : Token} (rest : List Token) (h : t.keyword? = some .not) :
    termOf lookahead resolve (t :: rest) =
      (termOf lookahead resolve rest).map fun p => (p.1.negate, p.2) := by
  unfold termOf
  rw [term]
  simp only [h, ExceptT.run_bind, Id.run_bind]
  split <;> rename_i h' <;> simp only [h'] <;> rfl

/-- An opening parenthesis takes an expression and the closing parenthesis right after it. -/
theorem termOf_leftParen {t : Token} (rest : List Token) (h : t.keyword? = some .leftParen) :
    termOf lookahead resolve (t :: rest) =
      match chainOf lookahead resolve .or rest with
      | .error e => .error e
      | .ok (p, after) =>
        if after.head?.bind Token.keyword? = some .rightParen then .ok (p.grouped, after.tail)
        else .error (.unmatchedParenthesis t.start) := by
  unfold termOf chainOf
  rw [term]
  simp only [h, ExceptT.run_bind, Id.run_bind]
  split
  next inner h' =>
    simp only [h']
    obtain ⟨p, after, shorter⟩ := inner
    cases after with
    | nil => rfl
    | cons u after =>
      simp only [Except.map, Parsed.result, List.head?_cons, Option.bind_some, List.tail_cons]
      by_cases hu : u.keyword? = some .rightParen
      · simp only [hu, if_true]
        rfl
      · simp only [hu, if_false]
        rfl
  next e h' =>
    simp only [h']
    rfl

/-- No other keyword begins a term. -/
theorem termOf_keyword {t : Token} (rest : List Token) {k : Keyword} (h : t.keyword? = some k)
    (other : k ≠ .true ∧ k ≠ .false ∧ k ≠ .leftParen ∧ k ≠ .not) :
    termOf lookahead resolve (t :: rest) = .error (.unexpected t.start (String.ofList t.text)) := by
  unfold termOf
  rw [term]
  obtain ⟨h1, h2, h3, h4⟩ := other
  cases k <;> first | contradiction | (simp only [h]; rfl)

/-- A token that is no keyword begins a name, and the resolver says where the name ends. -/
theorem termOf_name {t : Token} (rest : List Token) (h : t.keyword? = none) :
    termOf lookahead resolve (t :: rest) =
      match spanOf lookahead resolve t.text rest with
      | some (p, n) => .ok (p, rest.drop n)
      | none => .error (.unresolved t.start (String.ofList (t.text ++ Token.written rest))) := by
  unfold termOf spanOf
  rw [term]
  simp only [h, ExceptT.run_bind, Id.run_bind, ExceptT.run_lift, Id.run_map]
  cases (resolveSpan (m := Id) lookahead (fun name => pure (resolve name)) t.text rest).run with
  | none => rfl
  | some found => rfl

/-! ## Operands and connectives -/

/-- The operands of a conjunction are terms. -/
theorem operandOf_and (ts : List Token) :
    operandOf lookahead resolve .and ts = termOf lookahead resolve ts := by
  unfold operandOf termOf
  rw [operand]

/-- The operands of a disjunction are conjunctions. -/
theorem operandOf_or (ts : List Token) :
    operandOf lookahead resolve .or ts = chainOf lookahead resolve .and ts := by
  unfold operandOf chainOf
  rw [operand]

/-- An expression is an operand and further operands, combined. -/
theorem chainOf_eq (c : Connective) (ts : List Token) :
    chainOf lookahead resolve c ts =
      match operandOf lookahead resolve c ts with
      | .error e => .error e
      | .ok (p, rest) =>
        (furtherOf lookahead resolve c rest).map fun more => (c.combine p more.1, more.2) := by
  unfold chainOf operandOf furtherOf
  rw [chain]
  simp only [ExceptT.run_bind, Id.run_bind]
  split
  next first h =>
    simp only [h, Id.run_bind, Except.map, Parsed.result]
    cases (further (m := Id) lookahead (fun name => pure (resolve name)) c first.rest).run.run <;>
      rfl
  next e h =>
    simp only [h]
    rfl

/-- No further operand comes where the tokens end. -/
theorem furtherOf_nil (c : Connective) : furtherOf lookahead resolve c [] = .ok ([], []) := by
  unfold furtherOf
  rw [further]
  rfl

/-- A further operand comes after the connective, and only there. -/
theorem furtherOf_cons (c : Connective) (t : Token) (rest : List Token) :
    furtherOf lookahead resolve c (t :: rest) =
      if t.keyword? = some c.keyword then
        match operandOf lookahead resolve c rest with
        | .error e => .error e
        | .ok (p, after) =>
          (furtherOf lookahead resolve c after).map fun more => (p :: more.1, more.2)
      else .ok ([], t :: rest) := by
  unfold furtherOf operandOf
  rw [further]
  split
  · simp only [ExceptT.run_bind, Id.run_bind]
    split
    next p h =>
      simp only [h, Id.run_bind, Except.map, Parsed.result]
      cases (further (m := Id) lookahead (fun name => pure (resolve name)) c p.rest).run.run <;> rfl
    next e h =>
      simp only [h]
      rfl
  · rfl

/-! ## What is left -/

/-- A term takes one token or more. -/
theorem length_rest_of_termOf {ts rest : List Token} {p : Formula}
    (h : termOf lookahead resolve ts = .ok (p, rest)) : rest.length < ts.length := by
  unfold termOf at h
  cases h' : (term (m := Id) lookahead (fun name => pure (resolve name)) ts).run.run with
  | error e => simp [h', Except.map] at h
  | ok q =>
    simp only [h', Except.map, Parsed.result, Except.ok.injEq, Prod.mk.injEq] at h
    exact h.2 ▸ q.shorter

/-- An expression takes one token or more. -/
theorem length_rest_of_chainOf {c : Connective} {ts rest : List Token} {p : Formula}
    (h : chainOf lookahead resolve c ts = .ok (p, rest)) : rest.length < ts.length := by
  unfold chainOf at h
  cases h' : (chain (m := Id) lookahead (fun name => pure (resolve name)) c ts).run.run with
  | error e => simp [h', Except.map] at h
  | ok q =>
    simp only [h', Except.map, Parsed.result, Except.ok.injEq, Prod.mk.injEq] at h
    exact h.2 ▸ q.shorter

/-- An expression that is read as a whole must leave no tokens; the first one that is left is
reported. -/
theorem wholeOf_eq (ts : List Token) :
    wholeOf lookahead resolve ts =
      match chainOf lookahead resolve .or ts with
      | .error e => .error e
      | .ok (p, []) => .ok p
      | .ok (_, t :: _) =>
        if t.keyword? = some .rightParen then .error (.unmatchedParenthesis t.start)
        else .error (.unexpected t.start (String.ofList t.text)) := by
  unfold wholeOf chainOf whole
  simp only [ExceptT.run_bind, Id.run_bind]
  split
  next p h =>
    simp only [h]
    obtain ⟨p, rest, shorter⟩ := p
    cases rest with
    | nil => rfl
    | cons t rest =>
      simp only [Except.map, Parsed.result]
      split <;> rfl
  next e h =>
    simp only [h]
    rfl

end Reading

/-- A text without tokens is empty; the tokens of another make up the formula. -/
theorem Formula.read_eq (lookahead : Lookahead) (resolve : String → Option Formula)
    (text : String) :
    Formula.read lookahead resolve text =
      match Token.tokenize text.toList with
      | [] => .error .empty
      | ts => Reading.wholeOf lookahead resolve ts := by
  unfold Formula.read Formula.readM Reading.wholeOf
  cases Token.tokenize text.toList <;> rfl

end RuleFormula
