import RuleFormula.Proofs.Reading.Derived

/-!
# When reading fails

`Fails` is the counterpart of `Derives`: it relates tokens from which something cannot be read to
the error that is found in them. An error lies at the end of the tokens, at a token that begins no
term, at a word with which no name begins, or at a parenthesis after whose expression no other one
comes; all that stands before it is derived. A reader ends with an error exactly where its tokens
are related to it (`fails_iff`), and what is read of all tokens is an error exactly where reading
fails or something is left that does not go on (`wholeOf_eq_error_iff`).
-/

namespace RuleFormula

open Token

/-- No term begins with the keyword. -/
def Keyword.BeginsNoTerm (k : Keyword) : Prop :=
  k ≠ .true ∧ k ≠ .false ∧ k ≠ .leftParen ∧ k ≠ .not

namespace Reading

variable {lookahead : Lookahead} {resolve : String → Option Formula} {c : Connective} {s : Symbol}
  {e : Tree} {err : ParseError} {t : Token} {ts rest mid : List Token} {p : Formula}

variable (resolve) in
/-- No term begins where the tokens do, and this is the error there. -/
inductive Barred : List Token → ParseError → Prop
  | ended : Barred [] .unexpectedEnd
  | keyword {t : Token} {ts : List Token} {k : Keyword} : t.keyword? = some k → k.BeginsNoTerm →
    Barred (t :: ts) (.unexpected t.start (String.ofList t.text))
  | nameless {t : Token} {ts : List Token} : t.keyword? = none →
    (∀ k ≤ ts.length, resolve (String.ofList (spanText t.text ts k)) = none) →
    Barred (t :: ts) (.unresolved t.start (String.ofList (t.text ++ written ts)))

variable (lookahead resolve) in
/-- Something cannot be read from the tokens, and this is the error in them. -/
inductive Fails : Symbol → List Token → ParseError → Prop
  | here {ts : List Token} {err : ParseError} : Barred resolve ts err → Fails .term ts err
  | inside {t : Token} {ts : List Token} {err : ParseError} : t.keyword? = some .leftParen →
    Fails (.chain .or) ts err → Fails .term (t :: ts) err
  | unclosed {t : Token} {ts rest : List Token} {inner : Tree} : t.keyword? = some .leftParen →
    Derives lookahead resolve (.chain .or) ts inner rest → Follows (.chain .or) rest →
    rest.head?.bind keyword? ≠ some .rightParen →
    Fails .term (t :: ts) (.unmatchedParenthesis t.start)
  | not {t : Token} {ts : List Token} {err : ParseError} : t.keyword? = some .not →
    Fails .term ts err → Fails .term (t :: ts) err
  | first {c : Connective} {ts : List Token} {err : ParseError} :
    Fails c.operandSymbol ts err → Fails (.chain c) ts err
  | further {c : Connective} {ts rest : List Token} {first : Tree} {err : ParseError} :
    Derives lookahead resolve c.operandSymbol ts first rest → Fails (.further c) rest err →
    Fails (.chain c) ts err
  | next {c : Connective} {t : Token} {ts : List Token} {err : ParseError} :
    t.keyword? = some c.keyword → Fails c.operandSymbol ts err → Fails (.further c) (t :: ts) err
  | later {c : Connective} {t : Token} {ts rest : List Token} {next : Tree} {err : ParseError} :
    t.keyword? = some c.keyword → Derives lookahead resolve c.operandSymbol ts next rest →
    Fails (.further c) rest err → Fails (.further c) (t :: ts) err

/-! ## Where reading ends -/

/-- Where neither the connective comes next nor one that goes on with its operands, nothing goes on
with further operands. -/
lemma Follows.further (h : Follows c.operandSymbol ts)
    (hc : ts.head?.bind keyword? ≠ some c.keyword) : Follows (.further c) ts := by
  intro o ho
  cases c with
  | and =>
    cases o with
    | and => exact hc
    | or => exact absurd ho (by decide)
  | or =>
    cases o with
    | and => exact h .and (by decide)
    | or => exact hc

/-- After an operand comes its connective, where reading fails at further ones. -/
lemma Fails.follows (h : Fails lookahead resolve (.further c) ts err) :
    Follows c.operandSymbol ts := by
  have before {t : Token} {ts : List Token} (hk : t.keyword? = some c.keyword) :
      Follows c.operandSymbol (t :: ts) := by
    refine follows_of_keyword hk fun o ho e => ?_
    cases c <;> cases o <;> first | exact absurd ho (by decide) | cases e
  cases h with
  | next hk _ => exact before hk
  | later hk _ _ => exact before hk

variable (lookahead resolve) in
/-- Operands with a connective between them are read up to where no connective goes on with them. -/
structure Exhausts (ts : List Token) : Prop where
  chain {c : Connective} {p : Formula} {rest : List Token} :
    chainOf lookahead resolve c ts = .ok (p, rest) → Follows (.chain c) rest
  further {c : Connective} {ps : List Formula} {rest : List Token} :
    Follows c.operandSymbol ts → furtherOf lookahead resolve c ts = .ok (ps, rest) →
    Follows (.further c) rest

/-- After an operand comes nothing that would go on with it. -/
lemma Exhausts.operand (h : Exhausts lookahead resolve ts)
    (read : operandOf lookahead resolve c ts = .ok (p, rest)) : Follows c.operandSymbol rest := by
  cases c with
  | and => exact follows_term rest
  | or => exact h.chain (operandOf_or _ _ ts ▸ read)

/-- Operands are read to their end, if those of shorter lists of tokens are. -/
lemma chain_exhausts
    (ih : ∀ us : List Token, us.length < ts.length → Exhausts lookahead resolve us)
    (operand : ∀ {p rest}, operandOf lookahead resolve c ts = .ok (p, rest) →
      Follows c.operandSymbol rest)
    (h : chainOf lookahead resolve c ts = .ok (p, rest)) : Follows (.chain c) rest := by
  obtain ⟨q, mid, qs, first, further, rfl⟩ := chainOf_eq_ok_iff.1 h
  exact (ih mid (length_rest_of_operandOf first)).further (operand first) further

/-- Further operands are read to their end, if those of shorter lists of tokens are. -/
lemma further_exhausts
    (ih : ∀ us : List Token, us.length < ts.length → Exhausts lookahead resolve us)
    {ps : List Formula} (hf : Follows c.operandSymbol ts)
    (h : furtherOf lookahead resolve c ts = .ok (ps, rest)) : Follows (.further c) rest := by
  by_cases hk : ts.head?.bind keyword? = some c.keyword
  · obtain ⟨t, ht, hk⟩ := Option.bind_eq_some_iff.1 hk
    obtain ⟨ts, rfl⟩ := List.head?_eq_some_iff.1 ht
    obtain ⟨q, mid, qs, next, later, rfl⟩ := (furtherOf_cons_eq_ok_iff hk).1 h
    have shorter := Nat.lt_succ_of_lt (length_rest_of_operandOf next)
    exact (ih mid shorter).further ((ih ts (Nat.lt_succ_self _)).operand next) later
  · rw [furtherOf_of_ne hk] at h
    cases h
    exact hf.further hk

/-- All readers go as far as they can, by the number of tokens. -/
lemma exhausts (ts : List Token) : Exhausts lookahead resolve ts := by
  have ih (us : List Token) (_ : us.length < ts.length) : Exhausts lookahead resolve us :=
    exhausts us
  have conjunction {p : Formula} {rest : List Token}
      (h : chainOf lookahead resolve .and ts = .ok (p, rest)) : Follows (.chain .and) rest :=
    chain_exhausts ih (fun _ => follows_term _) h
  refine ⟨fun {c} _ _ h => ?_, further_exhausts ih⟩
  cases c with
  | and => exact conjunction h
  | or => exact chain_exhausts ih (fun h => conjunction (operandOf_or _ _ ts ▸ h)) h
termination_by ts.length

/-! ## When the readers end with an error -/

/-- A result that is changed was no error before. -/
lemma map_eq_error_iff {α β ε : Type} {x : Except ε α} {f : α → β} {err : ε} :
    x.map f = .error err ↔ x = .error err := by
  cases x with
  | error _ => exact ⟨fun h => by cases h; rfl, fun h => by cases h; rfl⟩
  | ok _ => exact ⟨nofun, nofun⟩

/-- Parentheses fail because of what is in them, or because they do not close right after it. -/
lemma termOf_leftParen_eq_error_iff (hk : t.keyword? = some .leftParen) :
    termOf lookahead resolve (t :: ts) = .error err ↔
      chainOf lookahead resolve .or ts = .error err ∨
      ∃ q rest, chainOf lookahead resolve .or ts = .ok (q, rest) ∧
        rest.head?.bind keyword? ≠ some .rightParen ∧ .unmatchedParenthesis t.start = err := by
  rw [termOf_leftParen _ _ _ hk]
  constructor
  · intro h
    split at h
    next inner =>
      cases h
      exact .inl inner
    next q rest inner =>
      split at h
      next => cases h
      next closed =>
        cases h
        exact .inr ⟨q, rest, inner, closed, rfl⟩
  · rintro (inner | ⟨q, rest, inner, closed, rfl⟩)
    · rw [inner]
    · rw [inner]
      exact if_neg closed

/-- A name fails when the resolver accepts no span that begins with it. -/
lemma termOf_name_eq_error_iff (hk : t.keyword? = none) :
    termOf lookahead resolve (t :: ts) = .error err ↔
      (∀ k ≤ ts.length, resolve (String.ofList (spanText t.text ts k)) = none) ∧
        .unresolved t.start (String.ofList (t.text ++ written ts)) = err := by
  rw [termOf_name _ _ _ hk, ← @spanOf_eq_none_iff lookahead]
  constructor
  · intro h
    split at h
    next => cases h
    next nameless =>
      cases h
      exact ⟨nameless, rfl⟩
  · rintro ⟨nameless, rfl⟩
    rw [nameless]

/-- Reading one thing after another fails at the first or at the second. -/
lemma after_eq_error_iff {α : Type} {x : Except ParseError (Formula × List Token)}
    {f : List Token → Except ParseError (List Formula × List Token)}
    (g : Formula → List Formula × List Token → α) :
    (match x with
      | .error e => Except.error e
      | .ok (a, rest) => (f rest).map (g a)) = Except.error err ↔
      x = .error err ∨ ∃ a rest, x = .ok (a, rest) ∧ f rest = .error err := by
  cases x with
  | error e =>
    refine ⟨fun h => .inl (congrArg _ (Except.error.inj h)), ?_⟩
    rintro (h | ⟨_, _, h, _⟩)
    · exact congrArg _ (Except.error.inj h)
    · cases h
  | ok read =>
    refine ⟨fun h => .inr ⟨_, _, rfl, map_eq_error_iff.1 h⟩, ?_⟩
    rintro (h | ⟨_, _, h, refused⟩)
    · cases h
    · cases h
      exact map_eq_error_iff.2 refused

/-- An expression fails at its first operand or at a further one. -/
lemma chainOf_eq_error_iff : chainOf lookahead resolve c ts = .error err ↔
    operandOf lookahead resolve c ts = .error err ∨
    ∃ q mid, operandOf lookahead resolve c ts = .ok (q, mid) ∧
      furtherOf lookahead resolve c mid = .error err := by
  rw [chainOf_eq]
  exact after_eq_error_iff fun p more => (c.combine p more.1, more.2)

/-- After the connective, further operands fail at the next one or at a later one. -/
lemma furtherOf_cons_eq_error_iff (hk : t.keyword? = some c.keyword) :
    furtherOf lookahead resolve c (t :: ts) = .error err ↔
      operandOf lookahead resolve c ts = .error err ∨
      ∃ q mid, operandOf lookahead resolve c ts = .ok (q, mid) ∧
        furtherOf lookahead resolve c mid = .error err := by
  rw [furtherOf_cons, if_pos hk]
  exact after_eq_error_iff fun p more => (p :: more.1, more.2)

variable (lookahead resolve) in
/-- The reader of a symbol ends with an error. -/
def Refuses : Symbol → List Token → ParseError → Prop
  | .term, ts, err => termOf lookahead resolve ts = .error err
  | .chain c, ts, err => chainOf lookahead resolve c ts = .error err
  | .further c, ts, err => furtherOf lookahead resolve c ts = .error err

/-- The reader of an operand refuses what the reader of its symbol does. -/
lemma refuses_operand_iff : Refuses lookahead resolve c.operandSymbol ts err ↔
    operandOf lookahead resolve c ts = .error err := by
  cases c with
  | and => exact operandOf_and lookahead resolve ts ▸ Iff.rfl
  | or => exact operandOf_or lookahead resolve ts ▸ Iff.rfl

/-- Where no term begins, the reader ends with the error there. -/
lemma Barred.termOf_eq (h : Barred resolve ts err) : termOf lookahead resolve ts = .error err := by
  cases h with
  | ended => exact termOf_nil _ _
  | keyword hk other => exact termOf_keyword _ _ _ hk other
  | nameless hk none => exact (termOf_name_eq_error_iff hk).2 ⟨none, rfl⟩

/-- A reader ends with the error that is found in its tokens. -/
lemma Fails.refuses (h : Fails lookahead resolve s ts err) :
    Refuses lookahead resolve s ts err := by
  induction h with
  | here h => exact h.termOf_eq
  | inside hk _ ih => exact (termOf_leftParen_eq_error_iff hk).2 (.inl ih)
  | unclosed hk inner hf hc =>
    exact (termOf_leftParen_eq_error_iff hk).2 (.inr ⟨_, _, inner.takes hf, hc, rfl⟩)
  | not hk _ ih =>
    rw [Refuses, termOf_not _ _ _ hk]
    exact map_eq_error_iff.2 ih
  | first _ ih => exact chainOf_eq_error_iff.2 (.inl (refuses_operand_iff.1 ih))
  | further h h' ih =>
    have first := takes_operand_iff.1 (h.takes h'.follows)
    exact chainOf_eq_error_iff.2 (.inr ⟨_, _, first, ih⟩)
  | next hk _ ih => exact (furtherOf_cons_eq_error_iff hk).2 (.inl (refuses_operand_iff.1 ih))
  | later hk h h' ih =>
    have next := takes_operand_iff.1 (h.takes h'.follows)
    exact (furtherOf_cons_eq_error_iff hk).2 (.inr ⟨_, _, next, ih⟩)

variable (lookahead resolve) in
/-- The errors with which readers end are found in the tokens. -/
structure Faulty (ts : List Token) : Prop where
  term {err : ParseError} : termOf lookahead resolve ts = .error err →
    Fails lookahead resolve .term ts err
  chain {c : Connective} {err : ParseError} : chainOf lookahead resolve c ts = .error err →
    Fails lookahead resolve (.chain c) ts err
  further {c : Connective} {err : ParseError} : furtherOf lookahead resolve c ts = .error err →
    Fails lookahead resolve (.further c) ts err

/-- Where an operand is refused, its symbol fails. -/
lemma Faulty.operand (h : Faulty lookahead resolve ts)
    (refused : operandOf lookahead resolve c ts = .error err) :
    Fails lookahead resolve c.operandSymbol ts err := by
  cases c with
  | and => exact h.term (operandOf_and _ _ ts ▸ refused)
  | or => exact h.chain (operandOf_or _ _ ts ▸ refused)

/-- The error of a term is found in the tokens, if those of shorter lists are. -/
lemma term_faulty (ih : ∀ us : List Token, us.length < ts.length → Faulty lookahead resolve us)
    (h : termOf lookahead resolve ts = .error err) : Fails lookahead resolve .term ts err := by
  cases ts with
  | nil =>
    rw [termOf_nil] at h
    cases h
    exact .here .ended
  | cons t ts =>
    have inner := ih ts (Nat.lt_succ_self _)
    cases hk : t.keyword? with
    | none =>
      obtain ⟨none, rfl⟩ := (termOf_name_eq_error_iff hk).1 h
      exact .here (.nameless hk none)
    | some k =>
      cases k with
      | true =>
        rw [termOf_true _ _ _ hk] at h
        cases h
      | false =>
        rw [termOf_false _ _ _ hk] at h
        cases h
      | not =>
        rw [termOf_not _ _ _ hk] at h
        exact .not hk (inner.term (map_eq_error_iff.1 h))
      | leftParen =>
        obtain refused | ⟨q, rest, read, closed, rfl⟩ := (termOf_leftParen_eq_error_iff hk).1 h
        · exact .inside hk (inner.chain refused)
        · obtain ⟨e, derived, rfl⟩ := (sound ts).chain read
          exact .unclosed hk derived ((exhausts ts).chain read) closed
      | _ =>
        rw [termOf_keyword _ _ _ hk (by decide)] at h
        cases h
        exact .here (.keyword hk ⟨nofun, nofun, nofun, nofun⟩)

/-- The error of an expression is found in the tokens, if those of shorter lists are. -/
lemma chain_faulty (ih : ∀ us : List Token, us.length < ts.length → Faulty lookahead resolve us)
    (operand : operandOf lookahead resolve c ts = .error err →
      Fails lookahead resolve c.operandSymbol ts err)
    (h : chainOf lookahead resolve c ts = .error err) :
    Fails lookahead resolve (.chain c) ts err := by
  obtain refused | ⟨q, mid, first, refused⟩ := chainOf_eq_error_iff.1 h
  · exact .first (operand refused)
  · obtain ⟨e, derived, rfl⟩ := (sound ts).operand first
    exact .further derived ((ih mid (length_rest_of_operandOf first)).further refused)

/-- The error of further operands is found in the tokens, if those of shorter lists are. -/
lemma further_faulty
    (ih : ∀ us : List Token, us.length < ts.length → Faulty lookahead resolve us)
    (h : furtherOf lookahead resolve c ts = .error err) :
    Fails lookahead resolve (.further c) ts err := by
  by_cases hk : ts.head?.bind keyword? = some c.keyword
  · obtain ⟨t, ht, hk⟩ := Option.bind_eq_some_iff.1 hk
    obtain ⟨ts, rfl⟩ := List.head?_eq_some_iff.1 ht
    obtain refused | ⟨q, mid, next, refused⟩ := (furtherOf_cons_eq_error_iff hk).1 h
    · exact .next hk ((ih ts (Nat.lt_succ_self _)).operand refused)
    · obtain ⟨e, derived, rfl⟩ := (sound ts).operand next
      have shorter := Nat.lt_succ_of_lt (length_rest_of_operandOf next)
      exact .later hk derived ((ih mid shorter).further refused)
  · rw [furtherOf_of_ne hk] at h
    cases h

/-- All errors of readers are found in the tokens, by the number of tokens. -/
lemma faulty (ts : List Token) : Faulty lookahead resolve ts := by
  have ih (us : List Token) (_ : us.length < ts.length) : Faulty lookahead resolve us := faulty us
  have conjunction {err : ParseError} (h : chainOf lookahead resolve .and ts = .error err) :
      Fails lookahead resolve (.chain .and) ts err :=
    chain_faulty ih (fun h => term_faulty ih (operandOf_and _ _ ts ▸ h)) h
  refine ⟨term_faulty ih, fun {c} _ h => ?_, further_faulty ih⟩
  cases c with
  | and => exact conjunction h
  | or => exact chain_faulty ih (fun h => conjunction (operandOf_or _ _ ts ▸ h)) h
termination_by ts.length

/-- A reader ends with an error exactly where reading fails with it. -/
theorem fails_iff : Fails lookahead resolve s ts err ↔ Refuses lookahead resolve s ts err := by
  refine ⟨Fails.refuses, fun h => ?_⟩
  cases s with
  | term => exact (faulty ts).term h
  | chain c => exact (faulty ts).chain h
  | further c => exact (faulty ts).further h

/-! ## Whole texts -/

/-- The error that a token is where an expression has ended before it. -/
def leftOver (t : Token) : ParseError :=
  if t.keyword? = some .rightParen then .unmatchedParenthesis t.start
  else .unexpected t.start (String.ofList t.text)

/-- No expression takes up all tokens where reading fails in them, or something is left after an
expression that does not go on with it. -/
theorem wholeOf_eq_error_iff : wholeOf lookahead resolve ts = .error err ↔
    Fails lookahead resolve (.chain .or) ts err ∨
    ∃ e t rest, Derives lookahead resolve (.chain .or) ts e (t :: rest) ∧
      Follows (.chain .or) (t :: rest) ∧ leftOver t = err := by
  rw [wholeOf_eq, fails_iff, Refuses]
  constructor
  · intro h
    split at h
    next refused =>
      cases h
      exact .inl refused
    next => cases h
    next q t rest read =>
      obtain ⟨e, derived, rfl⟩ := (sound ts).chain read
      refine .inr ⟨e, t, rest, derived, (exhausts ts).chain read, ?_⟩
      unfold leftOver
      split at h
      next closed =>
        cases h
        exact if_pos closed
      next other =>
        cases h
        exact if_neg other
  · rintro (refused | ⟨e, t, rest, derived, hf, rfl⟩)
    · rw [refused]
    · have read := derived.takes hf
      rw [Takes] at read
      rw [read]
      dsimp only
      unfold leftOver
      split <;> rfl

/-- The error in a text is the one in its tokens, where it has tokens. -/
lemma wholeOf_of_read_eq_error {text : String}
    (h : Formula.read lookahead resolve text = .error err) (hn : err ≠ .empty) :
    wholeOf lookahead resolve (tokenize text.toList) = .error err := by
  rw [Formula.read_eq] at h
  split at h
  next => exact absurd (Except.error.inj h).symm hn
  next => exact h

end Reading

end RuleFormula
