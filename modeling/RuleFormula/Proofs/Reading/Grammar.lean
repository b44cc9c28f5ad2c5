import RuleFormula.Proofs.Reading.Names

/-!
# The grammar of formulas

`Derives` is the grammar in which formulas are written, as a relation between the tokens up to the
end of a text, a derivation tree, and the tokens that are left after it. A name covers the tokens up
to the shortest or the longest span that the resolver accepts, so that this relation depends on the
lookahead and the resolver.

The readers take the tokens that a derivation covers and compute the value of its tree, where no
connective comes next that would go on with it (`Derives.takes`), and what they read has a
derivation (`sound`). So a text is read as a formula exactly when this is the value of a
derivation of all its tokens, of which there is one at most (`Formula.read_iff_derives`).
-/

namespace RuleFormula

open Token

namespace Reading

/-! ## Names -/

/-- Of the spans that begin with `span`, the one that ends with the `n`-th of the tokens after it is
the name of a formula: the shortest or the longest that the resolver accepts. -/
structure IsName (lookahead : Lookahead) (resolve : String → Option Formula) (span : List Char)
    (ts : List Token) (n : Nat) (p : Formula) : Prop where
  within : n ≤ ts.length
  accepted : resolve (String.ofList (spanText span ts n)) = some p
  shortest : lookahead = .shortest →
    ∀ k < n, resolve (String.ofList (spanText span ts k)) = none
  longest : lookahead = .longest →
    ∀ k ≤ ts.length, n < k → resolve (String.ofList (spanText span ts k)) = none

variable {lookahead : Lookahead} {resolve : String → Option Formula} {span : List Char}
  {t : Token} {ts : List Token} {n : Nat} {p : Formula}

/-- The first span is the name if it is accepted and, for the longest one, no longer span is. -/
lemma isName_zero : IsName lookahead resolve span (t :: ts) 0 p ↔
    resolve (String.ofList span) = some p ∧ (lookahead = .longest → ∀ k ≤ ts.length,
      resolve (String.ofList (spanText (span ++ t.gap ++ t.text) ts k)) = none) := by
  constructor
  · rintro ⟨_, accepted, _, longest⟩
    rw [spanText_zero] at accepted
    refine ⟨accepted, fun hl k hk => ?_⟩
    rw [← spanText_succ]
    exact longest hl (k + 1) (Nat.succ_le_succ hk) (Nat.succ_pos k)
  · rintro ⟨accepted, longest⟩
    refine ⟨Nat.zero_le _, spanText_zero ▸ accepted,
      fun _ _ hk => absurd hk (Nat.not_lt_zero _), ?_⟩
    intro hl k hk hpos
    obtain ⟨k, rfl⟩ := Nat.exists_eq_succ_of_ne_zero (Nat.ne_of_gt hpos)
    rw [spanText_succ]
    exact longest hl k (Nat.le_of_succ_le_succ hk)

/-- A longer span is the name if it is one behind the next token and, for the shortest one, this
span is not accepted. -/
lemma isName_succ : IsName lookahead resolve span (t :: ts) (n + 1) p ↔
    IsName lookahead resolve (span ++ t.gap ++ t.text) ts n p ∧
      (lookahead = .shortest → resolve (String.ofList span) = none) := by
  constructor
  · rintro ⟨within, accepted, shortest, longest⟩
    rw [spanText_succ] at accepted
    refine ⟨⟨Nat.le_of_succ_le_succ within, accepted, fun hs k hk => ?_, fun hl k hk hn => ?_⟩,
      fun hs => ?_⟩
    · rw [← spanText_succ]
      exact shortest hs (k + 1) (Nat.succ_lt_succ hk)
    · rw [← spanText_succ]
      exact longest hl (k + 1) (Nat.succ_le_succ hk) (Nat.succ_lt_succ hn)
    · have here := shortest hs 0 (Nat.succ_pos n)
      rwa [spanText_zero] at here
  · rintro ⟨⟨within, accepted, shortest, longest⟩, here⟩
    refine ⟨Nat.succ_le_succ within, spanText_succ n ▸ accepted, fun hs k hk => ?_,
      fun hl k hk hn => ?_⟩
    · cases k with
      | zero => exact spanText_zero ▸ here hs
      | succ k => exact spanText_succ k ▸ shortest hs k (Nat.lt_of_succ_lt_succ hk)
    · cases k with
      | zero => exact absurd hn (Nat.not_lt_zero _)
      | succ k =>
        rw [spanText_succ]
        exact longest hl k (Nat.le_of_succ_le_succ hk) (Nat.lt_of_succ_lt_succ hn)

/-- The search finds nothing where no span is accepted. -/
lemma spanOf_eq_none_iff : spanOf lookahead resolve span ts = none ↔
    ∀ k ≤ ts.length, resolve (String.ofList (spanText span ts k)) = none := by
  refine ⟨fun h => ?_, spanOf_eq_none⟩
  induction ts generalizing span with
  | nil =>
    rintro k hk
    obtain rfl := Nat.le_zero.1 hk
    rw [spanOf_nil, Option.map_eq_none_iff] at h
    exact spanText_zero ▸ h
  | cons t ts ih =>
    rw [spanOf_cons] at h
    split at h
    next accepted =>
      rw [Option.map_eq_none_iff] at h
      rw [h] at accepted
      cases accepted.2
    next =>
      cases later : spanOf lookahead resolve (span ++ t.gap ++ t.text) ts with
      | some found =>
        rw [later] at h
        cases h
      | none =>
        rw [later] at h
        rintro (_ | k) hk
        · exact spanText_zero ▸ Option.map_eq_none_iff.1 h
        · exact spanText_succ k ▸ ih later k (Nat.le_of_succ_le_succ hk)

/-- The search finds the name. -/
theorem spanOf_eq_some_iff :
    spanOf lookahead resolve span ts = some (p, n) ↔ IsName lookahead resolve span ts n p := by
  induction ts generalizing span n with
  | nil =>
    rw [spanOf_nil, Option.map_eq_some_iff]
    constructor
    · rintro ⟨q, accepted, e⟩
      cases e
      refine ⟨Nat.le_refl 0, ?_, fun _ _ hk => absurd hk (Nat.not_lt_zero _),
        fun _ _ hk hn => absurd hn (Nat.not_lt.2 hk)⟩
      rw [spanText_zero, accepted]
    · rintro ⟨within, accepted, _, _⟩
      obtain rfl := Nat.le_zero.1 within
      rw [spanText_zero] at accepted
      exact ⟨p, accepted, rfl⟩
  | cons t ts ih =>
    rw [spanOf_cons]
    -- what is found depends on the answer to this span and on what is found later
    cases n with
    | zero =>
      rw [isName_zero, ← @spanOf_eq_none_iff lookahead]
      cases lookahead <;> cases resolve (String.ofList span) <;>
        cases spanOf _ resolve (span ++ t.gap ++ t.text) ts <;> simp
    | succ n =>
      rw [isName_succ, ← ih]
      cases lookahead <;> cases resolve (String.ofList span) <;>
        cases spanOf _ resolve (span ++ t.gap ++ t.text) ts <;> simp [Prod.ext_iff]

/-! ## Derivations -/

/-- A derivation tree. -/
inductive Tree
  | top
  | bot
  | parentheses (inner : Tree)
  | not (operand : Tree)
  /-- A name, with the number of tokens after its first one, and what the resolver says it is. -/
  | name (n : Nat) (p : Formula)
  /-- A first operand, and further ones with the connective before each. -/
  | chain (c : Connective) (first further : Tree)
  | done
  | more (next later : Tree)

namespace Tree

mutual

/-- The formula of a tree. Two operands or more are combined, and one is passed on as it is; further
operands by themselves make no formula. -/
def value : Tree → Formula
  | top => .top
  | bot => .bot
  | parentheses inner => inner.value.grouped
  | not operand => operand.value.negate
  | name _ p => p
  | done | more _ _ => .undef
  | chain c first further =>
    match further.values with
    | [] => first.value
    | p :: ps => c.node (first.value :: p :: ps)

/-- The formulas of further operands. -/
def values : Tree → List Formula
  | more next later => next.value :: later.values
  | _ => []

end

/-- The formula of an expression combines its operands. -/
lemma value_chain (c : Connective) (first further : Tree) :
    (chain c first further).value = c.combine first.value further.values := by
  rw [value]
  cases further.values <;> rfl

end Tree

/-- What can be derived: a term, operands with a connective between them, and further operands with
the connective before each. The expressions are the operands of a disjunction. -/
inductive Symbol
  | term
  | chain (c : Connective)
  | further (c : Connective)

/-- What stands on each side of a connective. -/
def Connective.operandSymbol : Connective → Symbol
  | and => .term
  | or => .chain .and

variable (lookahead resolve) in
/-- The tokens begin with something that can be derived, by a tree, and with other tokens after
it. -/
inductive Derives : Symbol → List Token → Tree → List Token → Prop
  | top {t : Token} {ts : List Token} : t.keyword? = some .true → Derives .term (t :: ts) .top ts
  | bot {t : Token} {ts : List Token} : t.keyword? = some .false → Derives .term (t :: ts) .bot ts
  | parentheses {t u : Token} {ts rest : List Token} {inner : Tree} :
    t.keyword? = some .leftParen → u.keyword? = some .rightParen →
    Derives (.chain .or) ts inner (u :: rest) → Derives .term (t :: ts) (.parentheses inner) rest
  | not {t : Token} {ts rest : List Token} {operand : Tree} :
    t.keyword? = some .not → Derives .term ts operand rest →
    Derives .term (t :: ts) (.not operand) rest
  | name {t : Token} {ts : List Token} {n : Nat} {p : Formula} :
    t.keyword? = none → IsName lookahead resolve t.text ts n p →
    Derives .term (t :: ts) (.name n p) (ts.drop n)
  | chain {c : Connective} {ts rest rest' : List Token} {first further : Tree} :
    Derives c.operandSymbol ts first rest → Derives (.further c) rest further rest' →
    Derives (.chain c) ts (.chain c first further) rest'
  | done {c : Connective} (ts : List Token) : Derives (.further c) ts .done ts
  | more {c : Connective} {t : Token} {ts rest rest' : List Token} {next later : Tree} :
    t.keyword? = some c.keyword → Derives c.operandSymbol ts next rest →
    Derives (.further c) rest later rest' → Derives (.further c) (t :: ts) (.more next later) rest'

variable {c : Connective} {s : Symbol} {e e' : Tree} {rest rest' : List Token}

/-! ## What comes next -/

/-- The connectives that would go on with something that was derived. -/
def Symbol.rank : Symbol → Nat
  | term => 0
  | chain c => c.rank
  | further c => c.rank

/-- No connective comes next that would go on with something. -/
def Follows (s : Symbol) (ts : List Token) : Prop :=
  ∀ c : Connective, c.rank ≤ s.rank → ts.head?.bind keyword? ≠ some c.keyword

/-- Where the tokens end, nothing goes on. -/
lemma follows_nil (s : Symbol) : Follows s [] := fun _ _ => nofun

/-- No connective goes on with a term. -/
lemma follows_term (ts : List Token) : Follows .term ts := by
  intro c hc
  cases c <;> exact absurd hc (by decide)

/-- A keyword that is none of the connectives in question does not go on. -/
lemma follows_of_keyword {k : Keyword} (h : t.keyword? = some k)
    (hk : ∀ c : Connective, c.rank ≤ s.rank → k ≠ c.keyword) : Follows s (t :: ts) := by
  intro c hc e
  rw [List.head?_cons, Option.bind_some, h] at e
  exact hk c hc (Option.some.inj e)

/-- A closing parenthesis does not go on with anything. -/
lemma follows_rightParen (h : t.keyword? = some .rightParen) : Follows s (t :: ts) :=
  follows_of_keyword h fun c _ => by cases c <;> exact nofun

/-- After an operand comes its connective, or what comes after all operands. -/
lemma Follows.operand (hf : Follows (.further c) rest')
    (h : Derives lookahead resolve (.further c) rest e rest') : Follows c.operandSymbol rest := by
  have smaller : c.operandSymbol.rank < c.rank := by cases c <;> decide
  cases h with
  | done _ => exact fun c' hc => hf c' (Nat.le_trans hc (Nat.le_of_lt smaller))
  | more hk _ _ =>
    refine follows_of_keyword hk fun c' hc e => ?_
    have same : c = c' := by cases c <;> cases c' <;> first | rfl | cases e
    exact absurd (same ▸ hc) (Nat.not_le.2 smaller)

/-! ## Derivations are unique -/

/-- What is derived from the beginning of tokens is one thing only, where nothing goes on with
it. -/
theorem Derives.unique (h : Derives lookahead resolve s ts e rest)
    (h' : Derives lookahead resolve s ts e' rest') (hf : Follows s rest) (hf' : Follows s rest') :
    e = e' ∧ rest = rest' := by
  -- tokens that begin with one keyword do not begin with another
  have clash {t : Token} {k k' : Option Keyword} {P : Prop} (hk : t.keyword? = k)
      (hk' : t.keyword? = k') (ne : k ≠ k') : P := absurd (hk.symm.trans hk') ne
  induction h generalizing e' rest' with
  | top hk =>
    cases h' with
    | top _ => exact ⟨rfl, rfl⟩
    | _ hk' => exact clash hk hk' nofun
  | bot hk =>
    cases h' with
    | bot _ => exact ⟨rfl, rfl⟩
    | _ hk' => exact clash hk hk' nofun
  | parentheses hk hu _ ih =>
    cases h' with
    | parentheses _ hu' h' =>
      obtain ⟨rfl, after⟩ := ih h' (follows_rightParen hu) (follows_rightParen hu')
      exact ⟨rfl, (List.cons.inj after).2⟩
    | _ hk' => exact clash hk hk' nofun
  | not hk _ ih =>
    cases h' with
    | not _ h' =>
      obtain ⟨rfl, after⟩ := ih h' (follows_term _) (follows_term _)
      exact ⟨rfl, after⟩
    | _ hk' => exact clash hk hk' nofun
  | name hk hn =>
    cases h' with
    | name _ hn' =>
      have found := (spanOf_eq_some_iff.2 hn).symm.trans (spanOf_eq_some_iff.2 hn')
      cases found
      exact ⟨rfl, rfl⟩
    | _ hk' => exact clash hk hk' nofun
  | chain _ h ih ih' =>
    cases h' with
    | chain h₁ h₂ =>
      obtain ⟨rfl, rfl⟩ := ih h₁ (Follows.operand hf h) (Follows.operand hf' h₂)
      obtain ⟨rfl, after⟩ := ih' h₂ hf hf'
      exact ⟨rfl, after⟩
  | @done c ts =>
    cases h' with
    | done _ => exact ⟨rfl, rfl⟩
    | more hk _ _ => exact absurd hk (hf c (Nat.le_refl _))
  | @more c _ _ _ _ _ _ hk _ h ih ih' =>
    cases h' with
    | done _ => exact absurd hk (hf' c (Nat.le_refl _))
    | more _ h₁ h₂ =>
      obtain ⟨rfl, rfl⟩ := ih h₁ (hf.operand h) (hf'.operand h₂)
      obtain ⟨rfl, after⟩ := ih' h₂ hf hf'
      exact ⟨rfl, after⟩

/-! ## When the readers read something -/

/-- A result that is changed was a result before. -/
lemma map_eq_ok_iff {α β ε : Type} {x : Except ε α} {f : α → β} {b : β} :
    x.map f = .ok b ↔ ∃ a, x = .ok a ∧ f a = b := by
  cases x with
  | error e => exact ⟨nofun, fun ⟨_, h, _⟩ => nomatch h⟩
  | ok a =>
    constructor
    · intro h
      exact ⟨a, rfl, Except.ok.inj h⟩
    · rintro ⟨_, h, rfl⟩
      cases h
      rfl

/-- A negation is read when a term comes after it. -/
lemma termOf_not_eq_ok_iff (hk : t.keyword? = some .not) :
    termOf lookahead resolve (t :: ts) = .ok (p, rest) ↔
      ∃ q, termOf lookahead resolve ts = .ok (q, rest) ∧ q.negate = p := by
  rw [termOf_not _ _ _ hk, map_eq_ok_iff]
  constructor
  · rintro ⟨⟨q, after⟩, read, e⟩
    cases e
    exact ⟨q, read, rfl⟩
  · rintro ⟨q, read, rfl⟩
    exact ⟨_, read, rfl⟩

/-- Parentheses are read when an expression and the closing one come after the first. -/
lemma termOf_leftParen_eq_ok_iff (hk : t.keyword? = some .leftParen) :
    termOf lookahead resolve (t :: ts) = .ok (p, rest) ↔
      ∃ q u, chainOf lookahead resolve .or ts = .ok (q, u :: rest) ∧
        u.keyword? = some .rightParen ∧ q.grouped = p := by
  rw [termOf_leftParen _ _ _ hk]
  constructor
  · intro h
    split at h
    next => cases h
    next q after read =>
      split at h
      next closed =>
        obtain ⟨u, hu, closed⟩ := Option.bind_eq_some_iff.1 closed
        obtain ⟨after, rfl⟩ := List.head?_eq_some_iff.1 hu
        cases h
        exact ⟨q, u, read, closed, rfl⟩
      next => cases h
  · rintro ⟨q, u, read, closed, rfl⟩
    rw [read]
    exact if_pos closed

/-- A name is read when a span that begins with it is the one to take. -/
lemma termOf_name_eq_ok_iff (hk : t.keyword? = none) :
    termOf lookahead resolve (t :: ts) = .ok (p, rest) ↔
      ∃ n, IsName lookahead resolve t.text ts n p ∧ ts.drop n = rest := by
  rw [termOf_name _ _ _ hk]
  constructor
  · intro h
    split at h
    next q n found =>
      cases h
      exact ⟨n, spanOf_eq_some_iff.1 found, rfl⟩
    next => cases h
  · rintro ⟨n, name, rfl⟩
    rw [spanOf_eq_some_iff.2 name]

/-- An expression is read when an operand is, and further ones after it. -/
lemma chainOf_eq_ok_iff : chainOf lookahead resolve c ts = .ok (p, rest) ↔
    ∃ q mid qs, operandOf lookahead resolve c ts = .ok (q, mid) ∧
      furtherOf lookahead resolve c mid = .ok (qs, rest) ∧ c.combine q qs = p := by
  rw [chainOf_eq]
  constructor
  · intro h
    split at h
    next => cases h
    next q mid first =>
      obtain ⟨⟨qs, after⟩, further, e⟩ := map_eq_ok_iff.1 h
      cases e
      exact ⟨q, mid, qs, first, further, rfl⟩
  · rintro ⟨q, mid, qs, first, further, rfl⟩
    rw [first]
    exact map_eq_ok_iff.2 ⟨_, further, rfl⟩

/-- After the connective, further operands are read when one is, and others after it. -/
lemma furtherOf_cons_eq_ok_iff {ps : List Formula} (hk : t.keyword? = some c.keyword) :
    furtherOf lookahead resolve c (t :: ts) = .ok (ps, rest) ↔
      ∃ q mid qs, operandOf lookahead resolve c ts = .ok (q, mid) ∧
        furtherOf lookahead resolve c mid = .ok (qs, rest) ∧ q :: qs = ps := by
  rw [furtherOf_cons, if_pos hk]
  constructor
  · intro h
    split at h
    next => cases h
    next q mid next =>
      obtain ⟨⟨qs, after⟩, later, e⟩ := map_eq_ok_iff.1 h
      cases e
      exact ⟨q, mid, qs, next, later, rfl⟩
  · rintro ⟨q, mid, qs, next, later, rfl⟩
    rw [next]
    exact map_eq_ok_iff.2 ⟨_, later, rfl⟩

/-- Where the connective does not come next, there are no further operands. -/
lemma furtherOf_of_ne (hf : ts.head?.bind keyword? ≠ some c.keyword) :
    furtherOf lookahead resolve c ts = .ok ([], ts) := by
  cases ts with
  | nil => exact furtherOf_nil _ _ c
  | cons t ts => exact (furtherOf_cons _ _ c t ts).trans (if_neg hf)

/-! ## What is derived is read -/

variable (lookahead resolve) in
/-- The reader of a symbol takes tokens up to others, and gives the value of a tree. -/
def Takes : Symbol → List Token → Tree → List Token → Prop
  | .term, ts, e, rest => termOf lookahead resolve ts = .ok (e.value, rest)
  | .chain c, ts, e, rest => chainOf lookahead resolve c ts = .ok (e.value, rest)
  | .further c, ts, e, rest => furtherOf lookahead resolve c ts = .ok (e.values, rest)

/-- The reader of an operand takes what the reader of its symbol does. -/
lemma takes_operand_iff : Takes lookahead resolve c.operandSymbol ts e rest ↔
    operandOf lookahead resolve c ts = .ok (e.value, rest) := by
  cases c with
  | and => exact operandOf_and lookahead resolve ts ▸ Iff.rfl
  | or => exact operandOf_or lookahead resolve ts ▸ Iff.rfl

/-- The readers take what can be derived, up to the point where nothing goes on with it. -/
theorem Derives.takes (h : Derives lookahead resolve s ts e rest) (hf : Follows s rest) :
    Takes lookahead resolve s ts e rest := by
  induction h with
  | top hk => exact termOf_true _ _ _ hk
  | bot hk => exact termOf_false _ _ _ hk
  | parentheses hk hu _ ih =>
    exact (termOf_leftParen_eq_ok_iff hk).2 ⟨_, _, ih (follows_rightParen hu), hu, rfl⟩
  | not hk _ ih => exact (termOf_not_eq_ok_iff hk).2 ⟨_, ih (follows_term _), rfl⟩
  | name hk hn => exact (termOf_name_eq_ok_iff hk).2 ⟨_, hn, rfl⟩
  | chain _ h ih ih' =>
    have first := takes_operand_iff.1 (ih (Follows.operand hf h))
    exact chainOf_eq_ok_iff.2 ⟨_, _, _, first, ih' hf, (Tree.value_chain _ _ _).symm⟩
  | @done c ts => exact furtherOf_of_ne (hf c (Nat.le_refl _))
  | more hk _ h ih ih' =>
    have next := takes_operand_iff.1 (ih (hf.operand h))
    exact (furtherOf_cons_eq_ok_iff hk).2 ⟨_, _, _, next, ih' hf, rfl⟩

/-! ## What is read is derived -/

variable (lookahead resolve) in
/-- What is read from tokens can be derived. -/
structure Sound (ts : List Token) : Prop where
  term {p : Formula} {rest : List Token} : termOf lookahead resolve ts = .ok (p, rest) →
    ∃ e, Derives lookahead resolve .term ts e rest ∧ e.value = p
  chain {c : Connective} {p : Formula} {rest : List Token} :
    chainOf lookahead resolve c ts = .ok (p, rest) →
    ∃ e, Derives lookahead resolve (.chain c) ts e rest ∧ e.value = p
  further {c : Connective} {ps : List Formula} {rest : List Token} :
    furtherOf lookahead resolve c ts = .ok (ps, rest) →
    ∃ e, Derives lookahead resolve (.further c) ts e rest ∧ e.values = ps

/-- An operand that is read can be derived. -/
lemma Sound.operand (h : Sound lookahead resolve ts)
    (read : operandOf lookahead resolve c ts = .ok (p, rest)) :
    ∃ e, Derives lookahead resolve c.operandSymbol ts e rest ∧ e.value = p := by
  cases c with
  | and => exact h.term (operandOf_and _ _ ts ▸ read)
  | or => exact h.chain (operandOf_or _ _ ts ▸ read)

/-- An operand takes one token or more. -/
lemma length_rest_of_operandOf (h : operandOf lookahead resolve c ts = .ok (p, rest)) :
    rest.length < ts.length := by
  cases c with
  | and => exact length_rest_of_termOf _ _ (operandOf_and _ _ ts ▸ h)
  | or => exact length_rest_of_chainOf _ _ (operandOf_or _ _ ts ▸ h)

/-- A term that is read can be derived, if what is read from shorter lists of tokens can. -/
lemma term_sound (ih : ∀ us : List Token, us.length < ts.length → Sound lookahead resolve us)
    (h : termOf lookahead resolve ts = .ok (p, rest)) :
    ∃ e, Derives lookahead resolve .term ts e rest ∧ e.value = p := by
  cases ts with
  | nil =>
    rw [termOf_nil] at h
    cases h
  | cons t ts =>
    have inner := ih ts (Nat.lt_succ_self _)
    cases hk : t.keyword? with
    | none =>
      obtain ⟨n, name, rfl⟩ := (termOf_name_eq_ok_iff hk).1 h
      exact ⟨_, .name hk name, rfl⟩
    | some k =>
      cases k with
      | true =>
        rw [termOf_true _ _ _ hk] at h
        cases h
        exact ⟨_, .top hk, rfl⟩
      | false =>
        rw [termOf_false _ _ _ hk] at h
        cases h
        exact ⟨_, .bot hk, rfl⟩
      | not =>
        obtain ⟨q, read, rfl⟩ := (termOf_not_eq_ok_iff hk).1 h
        obtain ⟨e, derived, rfl⟩ := inner.term read
        exact ⟨_, .not hk derived, rfl⟩
      | leftParen =>
        obtain ⟨q, u, read, closed, rfl⟩ := (termOf_leftParen_eq_ok_iff hk).1 h
        obtain ⟨e, derived, rfl⟩ := inner.chain read
        exact ⟨_, .parentheses hk closed derived, rfl⟩
      | _ =>
        rw [termOf_keyword _ _ _ hk (by decide)] at h
        cases h

/-- Operands are derived one by one, where each of them is derived. -/
lemma chain_sound (ih : ∀ us : List Token, us.length < ts.length → Sound lookahead resolve us)
    (operand : ∀ {p rest}, operandOf lookahead resolve c ts = .ok (p, rest) →
      ∃ e, Derives lookahead resolve c.operandSymbol ts e rest ∧ e.value = p)
    (h : chainOf lookahead resolve c ts = .ok (p, rest)) :
    ∃ e, Derives lookahead resolve (.chain c) ts e rest ∧ e.value = p := by
  obtain ⟨q, mid, qs, first, further, rfl⟩ := chainOf_eq_ok_iff.1 h
  obtain ⟨e, derived, rfl⟩ := operand first
  obtain ⟨es, derived', rfl⟩ := (ih mid (length_rest_of_operandOf first)).further further
  exact ⟨_, .chain derived derived', Tree.value_chain c e es⟩

/-- Further operands that are read can be derived, if what is read from shorter lists of tokens can.
-/
lemma further_sound (ih : ∀ us : List Token, us.length < ts.length → Sound lookahead resolve us)
    {ps : List Formula} (h : furtherOf lookahead resolve c ts = .ok (ps, rest)) :
    ∃ e, Derives lookahead resolve (.further c) ts e rest ∧ e.values = ps := by
  by_cases hk : ts.head?.bind keyword? = some c.keyword
  · obtain ⟨t, ht, hk⟩ := Option.bind_eq_some_iff.1 hk
    obtain ⟨ts, rfl⟩ := List.head?_eq_some_iff.1 ht
    obtain ⟨q, mid, qs, next, later, rfl⟩ := (furtherOf_cons_eq_ok_iff hk).1 h
    have shorter := Nat.lt_succ_of_lt (length_rest_of_operandOf next)
    obtain ⟨e, derived, rfl⟩ := (ih ts (Nat.lt_succ_self _)).operand next
    obtain ⟨es, derived', rfl⟩ := (ih mid shorter).further later
    exact ⟨_, .more hk derived derived', rfl⟩
  · rw [furtherOf_of_ne hk] at h
    cases h
    exact ⟨_, .done ts, rfl⟩

/-- What the readers read can be derived. -/
theorem sound (ts : List Token) : Sound lookahead resolve ts := by
  have ih (us : List Token) (_ : us.length < ts.length) : Sound lookahead resolve us := sound us
  have conjunction {p : Formula} {rest : List Token}
      (h : chainOf lookahead resolve .and ts = .ok (p, rest)) :
      ∃ e, Derives lookahead resolve (.chain .and) ts e rest ∧ e.value = p :=
    chain_sound ih (fun h => term_sound ih (operandOf_and _ _ ts ▸ h)) h
  refine ⟨term_sound ih, fun {c} _ _ h => ?_, further_sound ih⟩
  cases c with
  | and => exact conjunction h
  | or => exact chain_sound ih (fun h => conjunction (operandOf_or _ _ ts ▸ h)) h
termination_by ts.length

/-! ## Texts -/

/-- An expression is read from all tokens exactly when it can be derived. -/
lemma wholeOf_eq_ok_iff : wholeOf lookahead resolve ts = .ok p ↔
    ∃ e, Derives lookahead resolve (.chain .or) ts e [] ∧ e.value = p := by
  rw [wholeOf_eq]
  constructor
  · intro h
    cases read : chainOf lookahead resolve .or ts with
    | error _ =>
      rw [read] at h
      cases h
    | ok read' =>
      obtain ⟨q, rest⟩ := read'
      rw [read] at h
      cases rest with
      | nil =>
        cases h
        exact (sound ts).chain read
      | cons t rest =>
        dsimp only at h
        split at h
        · cases h
        · cases h
  · rintro ⟨e, derived, rfl⟩
    have read := derived.takes (follows_nil _)
    rw [Takes] at read
    rw [read]

/-- A text is read as a formula when all its tokens are. -/
lemma read_eq_ok_iff {text : String} : Formula.read lookahead resolve text = .ok p ↔
    ∃ e, Derives lookahead resolve (.chain .or) (tokenize text.toList) e [] ∧ e.value = p := by
  rw [← wholeOf_eq_ok_iff, Formula.read_eq]
  cases tokenize text.toList with
  | nil =>
    refine ⟨nofun, fun h => ?_⟩
    rw [wholeOf_eq, chainOf_eq, operandOf_or, chainOf_eq, operandOf_and, termOf_nil] at h
    cases h
  | cons t ts => rfl

end Reading

/-- A text is read as a formula exactly when the formula is the value of a derivation of all tokens
of the text as an expression, and there is one such derivation at most. -/
theorem Formula.read_iff_derives (lookahead : Lookahead) (resolve : String → Option Formula)
    (text : String) :
    (∀ p, Formula.read lookahead resolve text = .ok p ↔
      ∃ e, Reading.Derives lookahead resolve (.chain .or) (tokenize text.toList) e [] ∧
        e.value = p) ∧
    (∀ e e', Reading.Derives lookahead resolve (.chain .or) (tokenize text.toList) e [] →
      Reading.Derives lookahead resolve (.chain .or) (tokenize text.toList) e' [] → e = e') := by
  refine ⟨fun p => Reading.read_eq_ok_iff, fun e e' h h' => ?_⟩
  exact (h.unique h' (Reading.follows_nil _) (Reading.follows_nil _)).1

/-- Where a name goes on after another one, the lookahead decides what is derived. -/
theorem Formula.read_by_lookahead :
    let resolve : String → Option Formula := fun name =>
      if name = "x" then some (.atom ⟨0, "x", true⟩)
      else if name = "x OR TRUE" then some (.atom ⟨1, "x OR TRUE", true⟩) else none
    Formula.read .shortest resolve "x OR TRUE" = .ok .top ∧
      Formula.read .longest resolve "x OR TRUE" = .ok (.atom ⟨1, "x OR TRUE", true⟩) := by
  intro resolve
  have tokens : tokenize "x OR TRUE".toList =
      [⟨[], 0, ['x']⟩, ⟨[' '], 2, ['O', 'R']⟩, ⟨[' '], 5, ['T', 'R', 'U', 'E']⟩] := by decide
  constructor
  · refine ((Formula.read_iff_derives .shortest resolve "x OR TRUE").1 _).2
      ⟨.chain .or (.chain .and (.name 0 (.atom ⟨0, "x", true⟩)) .done)
        (.more (.chain .and .top .done) .done), ?_, rfl⟩
    rw [tokens]
    refine .chain (.chain (.name rfl ?_) (.done _))
      (.more rfl (.chain (.top rfl) (.done _)) (.done _))
    exact ⟨Nat.zero_le _, rfl, fun _ _ hk => absurd hk (Nat.not_lt_zero _), nofun⟩
  · refine ((Formula.read_iff_derives .longest resolve "x OR TRUE").1 _).2
      ⟨.chain .or (.chain .and (.name 2 (.atom ⟨1, "x OR TRUE", true⟩)) .done) .done, ?_, rfl⟩
    rw [tokens]
    refine .chain (.chain (.name rfl ?_) (.done _)) (.done _)
    exact ⟨Nat.le_refl 2, rfl, nofun, fun _ _ hk hn => absurd hn (Nat.not_lt.2 hk)⟩

end RuleFormula
