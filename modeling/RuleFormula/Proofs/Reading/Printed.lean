import RuleFormula.Proofs.Reading.Lexemes
import RuleFormula.Proofs.Reading.Names

/-!
# Printed operands

White space before a text does not change what is read of it. Where operands are printed with a
connective between them, and each of them is read as itself, the readers go through them one by one
and combine them (`chainOf_printed`).
-/

namespace RuleFormula

open Text (isBlank)
open Token

variable {c : Char} {start : Nat} {xs ys post : List Char}

/-! ## Keywords in a text -/

/-- A keyword alone is one token. -/
lemma tokenizeFrom_keyword (k : Keyword) (start : Nat) :
    tokenizeFrom start k.text.toList = [⟨[], start, k.text.toList⟩] := by
  cases k <;> rfl

/-- The text may be cut off behind a keyword with which no word goes on, and behind parentheses. -/
lemma cut_keyword {k : Keyword} (h : Bounded ys ∨ k = .leftParen ∨ k = .rightParen) :
    Cut k.text.toList ys := by
  have some : k.text.toList ≠ [] := by cases k <;> decide
  refine ⟨k.text.toList.dropLast, k.text.toList.getLast some, ?_, ?_, ?_⟩
  · exact (List.dropLast_append_getLast some).symm
  · cases k <;> rfl
  · obtain hy | rfl | rfl := h
    · exact .inr hy
    · exact .inl rfl
    · exact .inl rfl

/-- The first token of a text that begins with a keyword is the keyword. -/
lemma tokenizeFrom_keyword_append (k : Keyword) (ys : List Char)
    (h : Bounded ys ∨ k = .leftParen ∨ k = .rightParen) (start : Nat) :
    ∃ start', tokenizeFrom start (k.text.toList ++ ys) =
      ⟨[], start, k.text.toList⟩ :: tokenizeFrom start' ys := by
  refine ⟨start + byteLength k.text.toList, ?_⟩
  rw [tokenizeFrom_append (cut_keyword h), tokenizeFrom_keyword]
  rfl

/-- A token with the writing of a keyword is the keyword. -/
lemma keyword?_eq (k : Keyword) (gap : List Char) (start : Nat) :
    keyword? ⟨gap, start, k.text.toList⟩ = some k :=
  Keyword.ofText?_eq_some_iff.2 rfl

/-- No word goes on in white space. -/
lemma bounded_blank (h : isBlank c = true) : Bounded (c :: xs) :=
  fun _ e => .inl (Option.some.inj e ▸ h)

/-- A keyword between two blanks is a token. -/
lemma tokenizeFrom_spaced (k : Keyword) (ys : List Char) (start : Nat) :
    tokenizeFrom start (' ' :: (k.text.toList ++ ' ' :: ys)) =
      ⟨[' '], start + 1, k.text.toList⟩ ::
        indent [' '] (tokenizeFrom (start + (byteLength k.text.toList + 2)) ys) := by
  have before (n : Nat) (xs : List Char) :
      tokenizeFrom n (' ' :: xs) = indent [' '] (tokenizeFrom (n + 1) xs) :=
    tokenizeFrom_blank rfl n xs
  have bounded : Bounded (' ' :: ys) := bounded_blank rfl
  have place : start + 1 + byteLength k.text.toList + 1 =
      start + (byteLength k.text.toList + 2) := by omega
  rw [before, tokenizeFrom_append (cut_keyword (.inl bounded)), tokenizeFrom_keyword, before, place]
  rfl

namespace Reading

variable {lookahead : Lookahead} {resolve : String → Option Formula}

/-! ## White space before a text -/

/-- The white space before a term does not matter to it. -/
lemma termOf_gap (t : Token) (ts : List Token) (gap : List Char) :
    termOf lookahead resolve ({ t with gap := gap } :: ts) =
      termOf lookahead resolve (t :: ts) := by
  have same : keyword? { t with gap := gap } = t.keyword? := rfl
  cases hk : t.keyword? with
  | none => rw [termOf_name _ _ _ hk, termOf_name _ _ _ (same.trans hk)]
  | some k =>
    replace same := same.trans hk
    cases k with
    | true => rw [termOf_true _ _ _ hk, termOf_true _ _ _ same]
    | false => rw [termOf_false _ _ _ hk, termOf_false _ _ _ same]
    | not => rw [termOf_not _ _ _ hk, termOf_not _ _ _ same]
    | leftParen => rw [termOf_leftParen _ _ _ hk, termOf_leftParen _ _ _ same]
    | _ => rw [termOf_keyword _ _ _ hk (by decide), termOf_keyword _ _ _ same (by decide)]

/-- White space before a term does not matter to it, where tokens may be missing. -/
lemma termOf_indent (gap : List Char) (ts : List Token) :
    termOf lookahead resolve (indent gap ts) = termOf lookahead resolve ts := by
  cases ts with
  | nil => rfl
  | cons t ts => exact termOf_gap t ts _

/-- White space before an operand does not matter to it. -/
lemma operandOf_indent (o : Connective) (gap : List Char) (ts : List Token) :
    operandOf lookahead resolve o (indent gap ts) = operandOf lookahead resolve o ts := by
  have conjunct : operandOf lookahead resolve .and (indent gap ts) =
      operandOf lookahead resolve .and ts := by
    rw [operandOf_and, operandOf_and, termOf_indent]
  cases o with
  | and => exact conjunct
  | or => rw [operandOf_or, operandOf_or, chainOf_eq, chainOf_eq, conjunct]

/-! ## What comes after an operand -/

/-- A text does not begin with the connective. -/
def Stops (o : Connective) (post : List Char) : Prop :=
  ∀ start t, (tokenizeFrom start post).head? = some t → t.keyword? ≠ some o.keyword

/-- An operand ends before a text: no word goes on in it, and it does not begin with a connective of
a smaller rank. -/
structure Closes (rank : Nat) (post : List Char) : Prop where
  bounded : Bounded post
  stops (o : Connective) : o.rank < rank → Stops o post

/-- What does not begin with connectives of a rank does not begin with those of smaller ones. -/
lemma Closes.mono {m n : Nat} (h : Closes n post) (hmn : m ≤ n) : Closes m post :=
  ⟨h.bounded, fun o ho => h.stops o (Nat.lt_of_lt_of_le ho hmn)⟩

/-- An operand ends where the text does. -/
lemma closes_nil (rank : Nat) : Closes rank [] :=
  ⟨nofun, fun _ _ _ => nofun⟩

/-- An operand ends before a closing parenthesis. -/
lemma closes_rightParen (rank : Nat) (ys : List Char) : Closes rank (')' :: ys) := by
  refine ⟨fun _ e => .inr (Option.some.inj e ▸ rfl), fun o _ start t ht => ?_⟩
  obtain ⟨start', e⟩ := tokenizeFrom_keyword_append .rightParen ys (.inr (.inr rfl)) start
  have head : (tokenizeFrom start (')' :: ys)).head? = _ := congrArg List.head? e
  rw [ht] at head
  obtain rfl := Option.some.inj head
  rw [keyword?_eq]
  cases o <;> decide

namespace Connective

/-- How the connective is written between two operands. -/
def separator (o : Connective) : List Char := ' ' :: o.keyword.text.toList ++ [' ']

/-- The text of further operands, with the connective before each. -/
def printedMore (o : Connective) (qs : List Formula) : List Char :=
  qs.flatMap fun q => o.separator ++ q.name.toList

/-- The text of operands with the connective between them. -/
def printed (o : Connective) (p : Formula) (qs : List Formula) : List Char :=
  p.name.toList ++ o.printedMore qs

/-- A connective between operands is its keyword with a space on each side. -/
lemma separator_append (o : Connective) (ys : List Char) :
    o.separator ++ ys = ' ' :: (o.keyword.text.toList ++ ' ' :: ys) := by
  rw [separator, List.append_assoc]
  rfl

/-- The next operand is printed behind the connective. -/
lemma printedMore_cons (o : Connective) (q : Formula) (qs : List Formula) (ys : List Char) :
    o.printedMore (q :: qs) ++ ys = o.separator ++ (q.name.toList ++ (o.printedMore qs ++ ys)) := by
  rw [printedMore, List.flatMap_cons, List.append_assoc, List.append_assoc]
  rfl

end Connective

/-- The tokens of a connective and of the text after it. -/
lemma tokenizeFrom_separator (o : Connective) (ys : List Char) (start : Nat) :
    ∃ start' t, tokenizeFrom start (o.separator ++ ys) =
      t :: indent [' '] (tokenizeFrom start' ys) ∧ t.keyword? = some o.keyword := by
  rw [o.separator_append, tokenizeFrom_spaced]
  exact ⟨_, _, rfl, keyword?_eq o.keyword _ _⟩

/-- An operand ends before its connective. -/
lemma closes_separator (o : Connective) (ys : List Char) : Closes o.rank (o.separator ++ ys) := by
  refine ⟨bounded_blank rfl, fun o' ho start t ht => ?_⟩
  obtain ⟨start', t', tokens, hk⟩ := tokenizeFrom_separator o ys start
  rw [tokens] at ht
  obtain rfl := Option.some.inj ht
  rw [hk]
  cases o with
  | and => cases o' <;> exact absurd ho (by decide)
  | or =>
    cases o' with
    | and => decide
    | or => exact absurd ho (Nat.lt_irrefl _)

/-! ## Printed operands -/

/-- The name of a formula is read as this formula, where an operand of the connective stands. -/
def ReadsOperand (lookahead : Lookahead) (resolve : String → Option Formula) (o : Connective)
    (p : Formula) : Prop :=
  ∀ start post, Closes o.rank post → ∃ start',
    operandOf lookahead resolve o (tokenizeFrom start (p.name.toList ++ post)) =
      .ok (p, tokenizeFrom start' post)

variable {o : Connective} {p : Formula} {qs : List Formula}

/-- An operand ends before further operands, and before what comes behind these. -/
lemma Closes.printedMore (h : Closes (o.rank + 1) post) (qs : List Formula) :
    Closes o.rank (o.printedMore qs ++ post) := by
  cases qs with
  | nil => exact h.mono (Nat.le_succ _)
  | cons q qs =>
    rw [o.printedMore_cons]
    exact closes_separator o _

/-- Further operands that are printed are read, one after the other. -/
lemma furtherOf_printedMore (h : ∀ q ∈ qs, ReadsOperand lookahead resolve o q)
    (hp : Closes (o.rank + 1) post) (start : Nat) : ∃ start',
      furtherOf lookahead resolve o (tokenizeFrom start (o.printedMore qs ++ post)) =
        .ok (qs, tokenizeFrom start' post) := by
  -- an operand is followed by the connective, or by `post` where it is the last one
  induction qs generalizing start with
  | nil =>
    refine ⟨start, ?_⟩
    show furtherOf lookahead resolve o (tokenizeFrom start post) = _
    cases e : tokenizeFrom start post with
    | nil => exact furtherOf_nil _ _ _
    | cons t ts =>
      rw [furtherOf_cons, if_neg (hp.stops o (Nat.lt_succ_self _) start t (e ▸ rfl))]
  | cons q qs ih =>
    obtain ⟨hq, hqs⟩ := List.forall_mem_cons.1 h
    obtain ⟨s₁, t, e₁, hk⟩ :=
      tokenizeFrom_separator o (q.name.toList ++ (o.printedMore qs ++ post)) start
    obtain ⟨s₂, e₂⟩ := hq s₁ _ (hp.printedMore qs)
    obtain ⟨s₃, e₃⟩ := ih hqs s₂
    refine ⟨s₃, ?_⟩
    rw [o.printedMore_cons, e₁, furtherOf_cons, if_pos hk, operandOf_indent, e₂]
    dsimp only
    rw [e₃]
    rfl

/-- Printed operands are read one by one and combined. -/
theorem chainOf_printed (h : ∀ q ∈ p :: qs, ReadsOperand lookahead resolve o q)
    (hp : Closes (o.rank + 1) post) (start : Nat) : ∃ start',
      chainOf lookahead resolve o (tokenizeFrom start (o.printed p qs ++ post)) =
        .ok (o.combine p qs, tokenizeFrom start' post) := by
  obtain ⟨first, more⟩ := List.forall_mem_cons.1 h
  obtain ⟨s₁, e₁⟩ := first start _ (hp.printedMore qs)
  obtain ⟨s₂, e₂⟩ := furtherOf_printedMore more hp s₁
  refine ⟨s₂, ?_⟩
  rw [Connective.printed, List.append_assoc, chainOf_eq, e₁]
  dsimp only
  rw [e₂]
  rfl

end Reading

end RuleFormula
