import RuleFormula.Proofs.Formula.Flattening
import RuleFormula.Proofs.Reading.Derived
import RuleFormula.Proofs.Reading.Elsewhere

/-!
# Texts put together

Where the shortest spans are taken for names, a text that is read as a formula may be put into
parentheses, after a negation, or beside another one with a connective between them, and the formula
of the whole text is what the operation makes of the formulas (`Formula.read_composed`). The texts
around it change neither the tokens of a text nor what is derived from them (`derives_of_read`), and
neither the parentheses nor the operands of a disjunction that are already there make a difference
to the operations.
-/

namespace RuleFormula

open Token

namespace Reading

variable {lookahead : Lookahead} {resolve : String → Option Formula} {e e' : Tree}
  {c : Connective} {p q : Formula} {t : Token} {ts us rest : List Token} {a b : String}

/-! ## Derivations put together -/

/-- A term may be an operand. -/
lemma Derives.operand (h : Derives lookahead resolve .term ts e rest) (c : Connective) :
    ∃ e', Derives lookahead resolve c.operandSymbol ts e' rest ∧ e'.value = e.value := by
  cases c with
  | and => exact ⟨e, h, rfl⟩
  | or => exact ⟨_, .chain h (.done _), rfl⟩

/-- Operands with a connective between them may be an expression. -/
lemma Derives.expression (h : Derives lookahead resolve (.chain c) ts e rest) :
    ∃ e', Derives lookahead resolve (.chain .or) ts e' rest ∧ e'.value = e.value := by
  cases c with
  | and => exact ⟨_, .chain h (.done _), rfl⟩
  | or => exact ⟨e, h, rfl⟩

/-- What is derived is in canonical shape when all names stand for formulas in it. -/
lemma Derives.isNormal (hr : ∀ name p, resolve name = some p → Formula.IsNormal p) {s : Symbol}
    (h : Derives lookahead resolve s ts e rest) : Has Formula.IsNormal s e := by
  refine h.keeps Formula.isNormal_kept fun p hp => ?_
  obtain ⟨_, _, _, _, _, _, name⟩ := hp
  exact hr _ _ name.accepted

/-- Two operands or more are combined by the operation. -/
lemma Connective.combine_append_cons (c : Connective) (p q : Formula) (ps qs : List Formula) :
    c.combine p (ps ++ q :: qs) = c.node (p :: ps ++ q :: qs) := by
  cases ps <;> rfl

/-- Operands with a connective between them, the connective, and such operands again. -/
lemma Derives.chain_append (hr : ∀ name p, resolve name = some p → Formula.IsNormal p)
    (hk : t.keyword? = some c.keyword) (h : Derives .shortest resolve (.chain c) ts e [])
    (h' : Derives .shortest resolve (.chain c) us e' []) :
    ∃ es, Derives .shortest resolve (.chain c) (ts ++ t :: us) es [] ∧
      es.value = c.node [e.value, e'.value] := by
  cases h with
  | @chain _ _ _ _ first further h₁ h₂ =>
    cases h' with
    | @chain _ _ _ _ first' further' h₁' h₂' =>
      -- the operands of the second expression are further operands of the first one
      obtain ⟨es, derived, values⟩ := (h₂.append (t :: us)).further_append (.more hk h₁' h₂')
      have normal : ∀ g ∈ [(first.value, further.values), (first'.value, further'.values)],
          ∀ p ∈ g.1 :: g.2, Formula.IsNormal p := by
        refine List.forall_mem_cons.2 ⟨?_, List.forall_mem_singleton.2 ?_⟩
        · exact List.forall_mem_cons.2 ⟨has_operand_iff.1 (h₁.isNormal hr), h₂.isNormal hr⟩
        · exact List.forall_mem_cons.2 ⟨has_operand_iff.1 (h₁'.isNormal hr), h₂'.isNormal hr⟩
      have combined := c.node_map_combine normal
      rw [List.flatMap_cons, List.flatMap_singleton] at combined
      refine ⟨_, .chain (h₁.append (t :: us)) derived, ?_⟩
      rw [Tree.value_chain, Tree.value_chain, Tree.value_chain, values, Tree.values,
        c.combine_append_cons]
      exact combined.symm

/-! ## What is read of a part -/

/-- What is read of a text is derived from its tokens wherever they stand. -/
lemma derives_of_read (h : Formula.read lookahead resolve a = .ok p) (gap : List Char)
    (start : Nat) :
    ∃ e, Derives lookahead resolve (.chain .or) (indent gap (tokenizeFrom start a.toList)) e [] ∧
      e.value = p := by
  refine wholeOf_eq_ok_iff.1 ?_
  rw [wholeOf_indent, wholeOf_tokenizeFrom, wholeOf_eq_ok_iff.2 (read_eq_ok_iff.1 h)]
  rfl

/-- The text in parentheses. -/
def inParentheses (a : String) : List Char :=
  Keyword.leftParen.text.toList ++ (a.toList ++ Keyword.rightParen.text.toList)

/-- A text in parentheses is read as a term, whatever comes after it. -/
lemma derives_inParentheses (h : Formula.read .shortest resolve a = .ok p) (gap : List Char)
    (start : Nat) (ys : List Char) : ∃ e start',
      Derives .shortest resolve .term (indent gap (tokenizeFrom start (inParentheses a ++ ys))) e
        (tokenizeFrom start' ys) ∧ e.value = p.grouped := by
  obtain ⟨start₁, opened⟩ := tokenizeFrom_keyword_append .leftParen
    (a.toList ++ (Keyword.rightParen.text.toList ++ ys)) (.inr (.inl rfl)) start
  have bounded : Bounded (Keyword.rightParen.text.toList ++ ys) := (closes_rightParen 0 ys).bounded
  obtain ⟨gap', _, inner⟩ := tokenizeFrom_append_bounded bounded start₁ a.toList
  obtain ⟨start₂, closed⟩ := tokenizeFrom_keyword_append .rightParen ys (.inr (.inr rfl))
    (start₁ + byteLength a.toList)
  obtain ⟨e, derived, rfl⟩ := derives_of_read h [] start₁
  rw [indent_nil] at derived
  refine ⟨.parentheses e, start₂, ?_, rfl⟩
  rw [inParentheses, List.append_assoc, List.append_assoc, opened, inner, closed]
  exact .parentheses (keyword?_eq _ _ _) (keyword?_eq _ _ _) (derived.append _)

/-! ## Whole texts -/

variable {text : String} {cs : List Char}

/-- A text whose tokens derive an expression is read as its formula. -/
lemma read_of_derives (ht : text.toList = cs)
    (h : Derives lookahead resolve (.chain .or) (tokenize cs) e []) (hv : e.value = p) :
    Formula.read lookahead resolve text = .ok p :=
  read_eq_ok_iff.2 ⟨e, ht ▸ h, hv⟩

/-- A text whose tokens derive a term is read as its formula. -/
lemma read_of_term (ht : text.toList = cs) (h : Derives lookahead resolve .term (tokenize cs) e [])
    (hv : e.value = p) : Formula.read lookahead resolve text = .ok p := by
  obtain ⟨e', first, v⟩ := h.operand .or
  exact read_of_derives ht (.chain first (.done _)) (v.trans hv)

/-- A text in parentheses. -/
lemma read_inParentheses (h : Formula.read .shortest resolve a = .ok p)
    (ht : text.toList = inParentheses a) : Formula.read .shortest resolve text = .ok p.grouped := by
  obtain ⟨e, _, derived, v⟩ := derives_inParentheses h [] 0 []
  rw [indent_nil, List.append_nil] at derived
  exact read_of_term ht derived v

/-- A negation before a text in parentheses. -/
lemma read_negation (h : Formula.read .shortest resolve a = .ok p)
    (ht : text.toList = Keyword.not.text.toList ++ ' ' :: inParentheses a) :
    Formula.read .shortest resolve text = .ok p.negate := by
  obtain ⟨start, tokens⟩ := tokenizeFrom_keyword_append .not (' ' :: inParentheses a)
    (.inl (bounded_blank rfl)) 0
  obtain ⟨e, _, derived, v⟩ := derives_inParentheses h [' '] (start + ' '.utf8Size) []
  rw [← tokenizeFrom_blank rfl, List.append_nil] at derived
  have negated := Derives.not (keyword?_eq .not [] 0) derived
  refine read_of_term ht (tokens ▸ negated) ?_
  rw [Tree.value, v, Formula.negate_grouped]

/-- Two texts in parentheses, with a connective between them. -/
lemma read_pair (o : Connective) (ha : Formula.read .shortest resolve a = .ok p)
    (hb : Formula.read .shortest resolve b = .ok q)
    (ht : text.toList = inParentheses a ++ (o.separator ++ inParentheses b)) :
    Formula.read .shortest resolve text = .ok (o.node [p, q]) := by
  obtain ⟨e₁, start₁, first, v₁⟩ := derives_inParentheses ha [] 0 (o.separator ++ inParentheses b)
  obtain ⟨start₂, t, tokens, hk⟩ := tokenizeFrom_separator o (inParentheses b) start₁
  obtain ⟨e₂, start₃, second, v₂⟩ := derives_inParentheses hb [' '] start₂ []
  rw [indent_nil, tokens] at first
  rw [List.append_nil] at second
  obtain ⟨e₁', first, v₁'⟩ := first.operand o
  obtain ⟨e₂', second, v₂'⟩ := second.operand o
  obtain ⟨e, derived, v⟩ := (Derives.chain first (.more hk second (.done _))).expression
  refine read_of_derives ht derived ?_
  calc e.value
    _ = o.node [e₁'.value, e₂'.value] := v
    _ = o.node [p.grouped, q.grouped] := by rw [v₁', v₂', v₁, v₂]
    _ = o.node [p, q] := o.node_map_grouped [p, q]

/-- Two texts with a disjunction between them. -/
lemma read_beside (hr : ∀ name p, resolve name = some p → Formula.IsNormal p)
    (ha : Formula.read .shortest resolve a = .ok p) (hb : Formula.read .shortest resolve b = .ok q)
    (ht : text.toList = a.toList ++ (Connective.or.separator ++ b.toList)) :
    Formula.read .shortest resolve text = .ok (Connective.or.node [p, q]) := by
  have bounded : Bounded (Connective.or.separator ++ b.toList) :=
    (closes_separator .or b.toList).bounded
  obtain ⟨gap, _, tokens⟩ := tokenizeFrom_append_bounded bounded 0 a.toList
  obtain ⟨start, t, later, hk⟩ := tokenizeFrom_separator .or b.toList (0 + byteLength a.toList)
  obtain ⟨e₁, first, rfl⟩ := derives_of_read ha [] 0
  obtain ⟨e₂, second, rfl⟩ := derives_of_read hb [' '] start
  have same : ({ t with gap := gap ++ t.gap } : Token).keyword? = some .or := hk
  obtain ⟨e, derived, v⟩ := first.chain_append hr same second
  rw [later] at tokens
  rw [indent_nil] at derived
  refine read_of_derives ht ?_ v
  rw [tokenize, tokens]
  exact derived

end Reading

namespace Formula

open Reading

variable {resolve : String → Option Formula} {a b : String} {p q : Formula}

/-- What is read of texts that are put together is what the operations make of the formulas that are
read of them. The resolver answers with formulas that can be made, and the shortest spans are taken
for names. A conjunction needs parentheses around its operands; a disjunction does not. -/
theorem read_composed (h : ∀ name p, resolve name = some p → Constructible p)
    (ha : read .shortest resolve a = .ok p) (hb : read .shortest resolve b = .ok q) :
    read .shortest resolve ("(" ++ a ++ ") AND (" ++ b ++ ")") = .ok (p &&& q) ∧
    read .shortest resolve ("(" ++ a ++ ") OR (" ++ b ++ ")") = .ok (p ||| q) ∧
    read .shortest resolve (a ++ " OR " ++ b) = .ok (p ||| q) ∧
    read .shortest resolve ("NOT (" ++ a ++ ")") = .ok (~~~p) ∧
    read .shortest resolve ("(" ++ a ++ ")") = .ok p.grouped := by
  have normal : ∀ name p, resolve name = some p → IsNormal p :=
    fun name p hp => (h name p hp).isNormal
  refine ⟨read_pair .and ha hb ?_, read_pair .or ha hb ?_, read_beside normal ha hb ?_,
    read_negation ha ?_, read_inParentheses ha ?_⟩
  · simp only [String.toList_append, inParentheses, List.append_assoc]
    rfl
  · simp only [String.toList_append, inParentheses, List.append_assoc]
    rfl
  · rw [String.toList_append, String.toList_append, List.append_assoc]
    rfl
  · rw [String.toList_append, String.toList_append, List.append_assoc]
    rfl
  · rw [String.toList_append, String.toList_append, List.append_assoc]
    rfl

/-- A name that ends with a keyword, before the same keyword. -/
theorem read_composed_of_names :
    (∀ name p, resolveNames [atom ⟨0, "x OR", true⟩, atom ⟨1, "y", true⟩] name = some p →
      Constructible p) ∧
    read .shortest (resolveNames [atom ⟨0, "x OR", true⟩, atom ⟨1, "y", true⟩]) "x OR" =
      .ok (atom ⟨0, "x OR", true⟩) ∧
    read .shortest (resolveNames [atom ⟨0, "x OR", true⟩, atom ⟨1, "y", true⟩]) "y" =
      .ok (atom ⟨1, "y", true⟩) ∧
    read .shortest (resolveNames [atom ⟨0, "x OR", true⟩, atom ⟨1, "y", true⟩]) "x OR OR y" =
      .ok (or [atom ⟨0, "x OR", true⟩, atom ⟨1, "y", true⟩]) := by
  have made : ∀ name p,
      resolveNames [atom ⟨0, "x OR", true⟩, atom ⟨1, "y", true⟩] name = some p →
        Constructible p := by
    intro name p hp
    have distinct : (([⟨0, "x OR", true⟩, ⟨1, "y", true⟩] : List Atom).map (·.name)).Nodup := by
      decide
    obtain ⟨a, _, _, rfl⟩ := (resolveNames_atoms distinct).1 hp
    exact .atom a
  have first : read .shortest (resolveNames [atom ⟨0, "x OR", true⟩, atom ⟨1, "y", true⟩]) "x OR" =
      .ok (atom ⟨0, "x OR", true⟩) := by
    have tokens : tokenize "x OR".toList = [⟨[], 0, ['x']⟩, ⟨[' '], 2, ['O', 'R']⟩] := by decide
    refine read_of_isName tokens rfl ⟨Nat.le_refl 1, rfl, fun _ k hk => ?_, nofun⟩
    obtain rfl := Nat.lt_one_iff.1 hk
    rfl
  have second : read .shortest (resolveNames [atom ⟨0, "x OR", true⟩, atom ⟨1, "y", true⟩]) "y" =
      .ok (atom ⟨1, "y", true⟩) := by
    have tokens : tokenize "y".toList = [⟨[], 0, ['y']⟩] := by decide
    exact read_of_isName tokens rfl ⟨Nat.le_refl 0, rfl, fun _ _ => nofun, nofun⟩
  refine ⟨made, first, second, (read_composed made first second).2.2.1.trans ?_⟩
  exact congrArg Except.ok (disj_atoms (by decide))

end Formula

end RuleFormula
