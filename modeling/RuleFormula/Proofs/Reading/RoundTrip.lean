import RuleFormula.Proofs.Formula.Constructible
import RuleFormula.Proofs.Formula.Leaves
import RuleFormula.Proofs.Reading.Printed

/-!
# Reading what was printed

A formula that is combined of atoms with legible names is read again from its name, under each
lookahead (`read_name`). Its nodes are in canonical shape, so the operations of the readers make
each node again of its operands, and the names of its atoms are found in the text as they stand
there.
-/

namespace RuleFormula

open Token

namespace Formula

/-- A formula that is combined of the truth values and the atoms of a list. -/
inductive BuiltFrom (A : List Atom) : Formula → Prop
  | top : BuiltFrom A .top
  | bot : BuiltFrom A .bot
  | atom {a : Atom} : a ∈ A → BuiltFrom A (.atom a)
  | conj {ps : List Formula} {p : Formula} : (∀ q ∈ ps, BuiltFrom A q) → conjAll ps = .ok p →
    BuiltFrom A p
  | disj {ps : List Formula} {p : Formula} : (∀ q ∈ ps, BuiltFrom A q) → disjAll ps = .ok p →
    BuiltFrom A p
  | negate {p : Formula} : BuiltFrom A p → BuiltFrom A p.negate
  | grouped {p : Formula} : BuiltFrom A p → BuiltFrom A p.grouped
  | remove {p q : Formula} {index : Nat} : BuiltFrom A p → p.remove? index = some q →
    BuiltFrom A q

variable {A : List Atom} {p q : Formula} {ps qs : List Formula}

/-- A formula that is combined of atoms can be made. -/
lemma BuiltFrom.constructible (h : BuiltFrom A p) : Constructible p := by
  induction h with
  | top => exact .top
  | bot => exact .bot
  | atom _ => exact .atom _
  | conj _ e ih => exact .conj ih e
  | disj _ e ih => exact .disj ih e
  | negate _ ih => exact .negate ih
  | grouped _ ih => exact .grouped ih
  | remove _ e ih => exact .remove ih e

/-- A formula that is combined of atoms has no others. -/
lemma BuiltFrom.over (h : BuiltFrom A p) : Over (· ∈ A) p := by
  induction h with
  | top => exact over_kept.top
  | bot => exact over_kept.bot
  | atom ha => exact List.forall_mem_singleton.2 ha
  | conj _ e ih => exact conjAll_eq_ok e ▸ over_kept.conj ih
  | disj _ e ih => exact disjAll_eq_ok e ▸ over_kept.disj ih
  | negate _ ih => exact ih.negate
  | grouped _ ih => exact over_kept.grouped ih
  | remove _ e ih => exact ih.remove? e

end Formula

namespace Reading

open Formula

variable {lookahead : Lookahead} {resolve : String → Option Formula} {A : List Atom}
  {p : Formula} {ps : List Formula} {post : List Char}

/-! ## The places of a formula in a text -/

/-- The name of a formula is read as this formula wherever the formula may be printed. -/
structure ReadsBack (lookahead : Lookahead) (resolve : String → Option Formula) (p : Formula) :
    Prop where
  /-- A formula that needs no parentheses is a term. -/
  term : ¬ IsGroupable p → ReadsOperand lookahead resolve .and p
  /-- A formula that is no disjunction is an operand of a disjunction. -/
  disjunct : (∀ ps, p ≠ .or ps) → ReadsOperand lookahead resolve .or p
  /-- Each formula is an expression. -/
  expression (start : Nat) (post : List Char) : Closes (Connective.rank .or + 1) post →
    ∃ start', chainOf lookahead resolve .or (tokenizeFrom start (p.name.toList ++ post)) =
      .ok (p, tokenizeFrom start' post)

/-- One operand is an expression. -/
lemma ReadsOperand.chainOf {o : Connective} (h : ReadsOperand lookahead resolve o p)
    (hp : Closes (o.rank + 1) post) (start : Nat) : ∃ start',
      chainOf lookahead resolve o (tokenizeFrom start (p.name.toList ++ post)) =
        .ok (p, tokenizeFrom start' post) := by
  have printed : o.printed p [] = p.name.toList := List.append_nil _
  have chain := chainOf_printed (List.forall_mem_singleton.2 h) hp start
  rwa [printed] at chain

/-- A conjunction or disjunction is read back when it is read as an operand of a disjunction. -/
lemma ReadsBack.of_disjunct (hg : IsGroupable p) (h : ReadsOperand lookahead resolve .or p) :
    ReadsBack lookahead resolve p where
  term hn := absurd hg hn
  disjunct _ := h
  expression start _ hp := h.chainOf hp start

/-- What is read as a term is read back everywhere. -/
lemma ReadsBack.of_term (h : ReadsOperand lookahead resolve .and p) :
    ReadsBack lookahead resolve p := by
  have disjunct : ReadsOperand lookahead resolve .or p := by
    intro start post hp
    rw [operandOf_or]
    exact h.chainOf (hp.mono (by decide)) start
  exact ⟨fun _ => h, fun _ => disjunct, fun start _ hp => disjunct.chainOf hp start⟩

/-- The name of a node is printed with the connective between its operands. -/
lemma toList_renderings (o : Connective) (p : Formula) (qs : List Formula) :
    (renderings (String.ofList o.separator) (p :: qs)).toList = o.printed p qs := by
  induction qs generalizing p with
  | nil =>
    rw [renderings, ← name_eq_rendering]
    exact (List.append_nil _).symm
  | cons q qs ih =>
    have more : o.printed p (q :: qs) = p.name.toList ++ (o.separator ++ o.printed q qs) :=
      congrArg (_ ++ ·) (List.append_assoc _ _ _)
    rw [renderings, ← name_eq_rendering, String.toList_append, String.toList_append,
      String.toList_ofList, ih, more, List.append_assoc]
    exact List.cons_ne_nil q qs

/-- The name of a conjunction is the print of its operands. -/
lemma toList_name_and (p : Formula) (qs : List Formula) :
    (Formula.and (p :: qs)).name.toList = Connective.printed .and p qs := by
  rw [← toList_renderings, name_eq_rendering, rendering]
  rfl

/-- The name of a disjunction is the print of its operands. -/
lemma toList_name_or (p : Formula) (qs : List Formula) :
    (Formula.or (p :: qs)).name.toList = Connective.printed .or p qs := by
  rw [← toList_renderings, name_eq_rendering, rendering]
  rfl

/-! ## Nodes -/

/-- A formula whose name is a keyword of its own is read back. -/
lemma readsBack_keyword {k : Keyword} (hk : p.name = k.text)
    (hr : ∀ {t : Token} rest, t.keyword? = some k →
      termOf lookahead resolve (t :: rest) = .ok (p, rest)) :
    ReadsBack lookahead resolve p := by
  refine .of_term fun start post hp => ?_
  obtain ⟨start', e⟩ := tokenizeFrom_keyword_append k post (.inl hp.bounded) start
  refine ⟨start', ?_⟩
  rw [operandOf_and, hk, e, hr _ (keyword?_eq k _ _)]

/-- An atom with a legible name is read back. -/
lemma readsBack_atom (h : Legible A) {a : Atom} (ha : a ∈ A) :
    ReadsBack lookahead (resolveNames (A.map .atom)) (.atom a) := by
  refine .of_term fun start post hp => ?_
  exact ⟨_, (operandOf_and _ _ _).trans (h.termOf_atom ha hp.bounded start)⟩

/-- A negation is read back when the formula under it is. -/
lemma ReadsBack.not (hn : IsNegand p) (hc : p.canNegate = true) (hp : Proper p)
    (h : ReadsBack lookahead resolve p) : ReadsBack lookahead resolve (.not p) := by
  have negate : p.negate = .not p := by
    cases hp with
    | atom a => exact negate_atom hc
    | group hg _ =>
      rw [negate_group hc, hg.negate_eq hc]
      rfl
    | _ => exact hn.elim
  -- the operand is an atom or in parentheses, so it is a term again
  have operand : ReadsOperand lookahead resolve .and p := by
    refine h.term ?_
    cases p with
    | atom _ | group _ => exact id
    | _ => exact hn.elim
  refine .of_term fun start post hp => ?_
  obtain ⟨s₁, e₁⟩ := tokenizeFrom_keyword_append .not (' ' :: (p.name.toList ++ post))
    (.inl (bounded_blank rfl)) start
  obtain ⟨s₂, e₂⟩ := operand (s₁ + ' '.utf8Size) post hp
  refine ⟨s₂, (operandOf_and _ _ _).trans ?_⟩
  have text : (Formula.not p).name.toList ++ post =
      Keyword.not.text.toList ++ ' ' :: (p.name.toList ++ post) := by
    rw [name_not, String.toList_append]
    rfl
  rw [operandOf_and] at e₂
  rw [text, e₁, termOf_not _ _ _ (keyword?_eq _ _ _), tokenizeFrom_blank rfl, termOf_indent, e₂,
    ← negate]
  rfl

/-- Parentheses are read back when the formula in them is. -/
lemma ReadsBack.group (hg : IsGroupable p) (h : ReadsBack lookahead resolve p) :
    ReadsBack lookahead resolve (.group p) := by
  have grouped : p.grouped = .group p := by
    cases p with
    | and _ | or _ => rfl
    | _ => exact hg.elim
  refine .of_term fun start post hp => ?_
  obtain ⟨s₁, e₁⟩ := tokenizeFrom_keyword_append .leftParen
    (p.name.toList ++ ')' :: post) (.inr (.inl rfl)) start
  obtain ⟨s₂, e₂⟩ := h.expression s₁ (')' :: post) (closes_rightParen _ _)
  obtain ⟨s₃, e₃⟩ := tokenizeFrom_keyword_append .rightParen post
    (.inr (.inr rfl)) s₂
  refine ⟨s₃, (operandOf_and _ _ _).trans ?_⟩
  have text : (Formula.group p).name.toList ++ post =
      Keyword.leftParen.text.toList ++ (p.name.toList ++ ')' :: post) := by
    rw [name_group, String.toList_append, String.toList_append, List.append_assoc,
      List.append_assoc]
    rfl
  replace e₃ : tokenizeFrom s₂ (')' :: post) = _ := e₃
  rw [text, e₁, termOf_leftParen _ _ _ (keyword?_eq _ _ _), e₂, e₃]
  dsimp only
  rw [List.head?_cons, Option.bind_some, keyword?_eq, if_pos rfl, grouped]
  rfl

/-- A conjunction is read back when its operands are: they are in canonical order already. -/
lemma ReadsBack.and (hl : 2 ≤ ps.length) (hc : ∀ p ∈ ps, IsConjunct p) (hs : Sorted ps)
    (h : ∀ p ∈ ps, ReadsBack lookahead resolve p) : ReadsBack lookahead resolve (.and ps) := by
  have made : Formula.conj ps = .and ps := Connective.node_eq_form (o := .and) hl hc hs
  match ps, hl with
  | p :: q :: qs, _ =>
    have operands : ∀ r ∈ p :: q :: qs, ReadsOperand lookahead resolve .and r := by
      intro r hr
      refine (h r hr).term ?_
      have := hc r hr
      cases r with
      | atom _ | not _ | group _ => exact id
      | _ => exact this.elim
    refine .of_disjunct trivial fun start post hp => ?_
    rw [operandOf_or, toList_name_and, ← made]
    exact chainOf_printed operands (hp.mono (by decide)) start

/-- A disjunction is read back when its operands are: they are in canonical order already. -/
lemma ReadsBack.or (hl : 2 ≤ ps.length) (hc : ∀ p ∈ ps, IsDisjunct p) (hs : Sorted ps)
    (h : ∀ p ∈ ps, ReadsBack lookahead resolve p) : ReadsBack lookahead resolve (.or ps) := by
  have made : Formula.disj ps = .or ps := Connective.node_eq_form (o := .or) hl hc hs
  match ps, hl with
  | p :: q :: qs, _ =>
    have operands : ∀ r ∈ p :: q :: qs, ReadsOperand lookahead resolve .or r := by
      intro r hr
      refine (h r hr).disjunct fun rs e => ?_
      have := hc r hr
      rw [e] at this
      exact this
    refine ⟨fun hn => absurd trivial hn, fun hn => absurd rfl (hn _), fun start post hp => ?_⟩
    rw [toList_name_or, ← made]
    exact chainOf_printed operands hp start

/-- A formula in canonical shape over legible atoms is read from its name. -/
theorem readsBack_of_proper (h : Legible A) (hp : Proper p) (ha : Over (· ∈ A) p) :
    ReadsBack lookahead (resolveNames (A.map .atom)) p := by
  induction hp with
  | atom a => exact readsBack_atom h (ha a (List.mem_singleton_self a))
  | not hn hc hp ih => exact .not hn hc hp (ih ha)
  | and hl hc hs _ ih => exact .and hl hc hs fun p hp => ih p hp (ha.children hp)
  | or hl hc hs _ ih => exact .or hl hc hs fun p hp => ih p hp (ha.children hp)
  | group hg _ ih => exact .group hg (ih ha)

/-- A text whose tokens are read to the last is read. -/
lemma read_eq_ok {text : String}
    (h : chainOf lookahead resolve .or (tokenize text.toList) = .ok (p, [])) :
    Formula.read lookahead resolve text = .ok p := by
  rw [Formula.read_eq]
  cases e : tokenize text.toList with
  | nil =>
    rw [e] at h
    exact absurd (length_rest_of_chainOf _ _ h) (Nat.lt_irrefl 0)
  | cons t ts =>
    dsimp only
    rw [wholeOf_eq, ← e, h]

end Reading

namespace Formula

open Reading

/-- A defined formula that is combined of legible atoms and the truth values is read again from its
name, whether the shortest or the longest spans are taken for names. -/
theorem read_name {A : List Atom} {p : Formula} (h : Legible A) (hb : BuiltFrom A p)
    (hd : p.isDefined = true) (lookahead : Lookahead) :
    read lookahead (resolveNames (A.map .atom)) p.name = .ok p := by
  -- a constant stands alone, and any other formula holds none
  have back : ReadsBack lookahead (resolveNames (A.map .atom)) p := by
    obtain rfl | rfl | proper := hb.constructible.isNormal.of_defined hd
    · exact readsBack_keyword rfl (termOf_true _ _)
    · exact readsBack_keyword rfl (termOf_false _ _)
    · exact readsBack_of_proper h proper hb.over
  obtain ⟨start', e⟩ := back.expression 0 [] (closes_nil _)
  rw [List.append_nil] at e
  exact read_eq_ok e

/-- The keywords and parentheses within names do not get in the way. -/
theorem read_names_with_keywords :
    Legible [⟨0, "f (AND)", true⟩, ⟨1, "g OR", true⟩] ∧
    BuiltFrom [⟨0, "f (AND)", true⟩, ⟨1, "g OR", true⟩]
      (not (group (or [atom ⟨0, "f (AND)", true⟩, atom ⟨1, "g OR", true⟩]))) ∧
    read .longest (resolveNames [atom ⟨0, "f (AND)", true⟩, atom ⟨1, "g OR", true⟩])
      "NOT (f (AND) OR g OR)" =
      .ok (not (group (or [atom ⟨0, "f (AND)", true⟩, atom ⟨1, "g OR", true⟩]))) := by
  have legible : Legible [⟨0, "f (AND)", true⟩, ⟨1, "g OR", true⟩] := by
    refine ⟨by decide, fun a ha => ?_, by decide⟩
    obtain rfl | rfl := List.mem_pair.1 ha
    · exact ⟨nofun, fun _ h => Option.some.inj h ▸ rfl, fun _ h => Option.some.inj h ▸ rfl,
        _, _, rfl, rfl⟩
    · exact ⟨nofun, fun _ h => Option.some.inj h ▸ rfl, fun _ h => Option.some.inj h ▸ rfl,
        _, _, rfl, rfl⟩
  have built : BuiltFrom [⟨0, "f (AND)", true⟩, ⟨1, "g OR", true⟩]
      (not (group (or [atom ⟨0, "f (AND)", true⟩, atom ⟨1, "g OR", true⟩]))) := by
    rw [← negate_or (by decide), ← disj_atoms (by decide)]
    refine .negate (@BuiltFrom.disj _ [atom _, atom _] _ (fun q hq => ?_) rfl)
    obtain rfl | rfl := List.mem_pair.1 hq
    · exact .atom List.mem_cons_self
    · exact .atom (List.mem_cons_of_mem _ List.mem_cons_self)
  have name : (not (group (or [atom ⟨0, "f (AND)", true⟩, atom ⟨1, "g OR", true⟩]))).name =
      "NOT (f (AND) OR g OR)" := by
    decide
  exact ⟨legible, built, name ▸ read_name legible built rfl .longest⟩

end Formula

end RuleFormula
