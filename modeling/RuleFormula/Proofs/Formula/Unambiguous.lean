import RuleFormula.Proofs.Formula.Connectives
import RuleFormula.Proofs.Formula.Pieces

/-!
# Names and leaves tell formulas apart

The pieces of a formula, with other pieces after them, tell the formula and the place where it ends
(`Told`), as long as no connective comes next that would go on with it. So formulas in canonical
shape with one name and the same leaves are equal (`eq_of_name_eq`). That is why the order of
operands is decisive: two operands of which neither stands after the other are the same, where
different atoms have different numbers (`NotAfter.antisymm`), and operands in any order have the
same canonical order (`sortOperands_eq_of_perm`).
-/

namespace RuleFormula

open Reading (Connective)

namespace Formula

/-! ## The pieces of a formula -/

/-- The pieces of further operands, with the connective before each. -/
def furtherPieces (o : Connective) (xss : List (List Piece)) : List Piece :=
  xss.flatMap (.between o :: ·)

/-- The pieces of operands with the connective between them. -/
def joined (o : Connective) : List (List Piece) → List Piece
  | [] => []
  | xs :: xss => xs ++ furtherPieces o xss

/-- The pieces of a node, made of those of its operands. -/
def piecesLayer : Layer (List Piece) → List Piece
  | .top | .bot | .undef => []
  | .atom a => [.leaf a]
  | .not xs => .not :: xs
  | .and xss => joined .and xss
  | .or xss => joined .or xss
  | .group xs => .leftParen :: (xs ++ [.rightParen])

/-- The pieces in which the name of a formula without constants is written. -/
def pieces (p : Formula) : List Piece := p.fold piecesLayer

@[simp] lemma pieces_not (p : Formula) : (not p).pieces = .not :: p.pieces := rfl

@[simp] lemma pieces_group (p : Formula) :
    (group p).pieces = .leftParen :: (p.pieces ++ [.rightParen]) := rfl

@[simp] lemma pieces_and (ps : List Formula) : (and ps).pieces = joined .and (ps.map pieces) := by
  rw [pieces, fold, foldAll_eq_map]
  rfl

@[simp] lemma pieces_or (ps : List Formula) : (or ps).pieces = joined .or (ps.map pieces) := by
  rw [pieces, fold, foldAll_eq_map]
  rfl

variable {p q : Formula} {ps qs : List Formula} {o : Connective} {r r' : List Piece}

/-- The next operand comes after the connective, and what comes after it stays. -/
lemma furtherPieces_cons (o : Connective) (xs : List Piece) (xss : List (List Piece))
    (r : List Piece) :
    furtherPieces o (xs :: xss) ++ r = .between o :: (xs ++ (furtherPieces o xss ++ r)) := by
  rw [furtherPieces, List.flatMap_cons, List.append_assoc]
  rfl

/-- The pieces of operands are written as their texts with the connective between them. -/
lemma written_joined (o : Connective) (xss : List (List Piece)) :
    Piece.written (joined o xss) =
      (Piece.between o).text.intercalate (xss.map Piece.written) := by
  cases xss with
  | nil => rfl
  | cons xs xss =>
    induction xss generalizing xs with
    | nil =>
      rw [joined, furtherPieces, List.flatMap_nil, List.append_nil, List.map_singleton,
        List.intercalate_singleton]
    | cons ys xss ih =>
      have more := furtherPieces_cons o ys xss []
      rw [List.append_nil, List.append_nil] at more
      rw [joined, more, Piece.written_append, Piece.written_cons, List.map_cons, List.map_cons,
        List.intercalate_cons_cons, List.append_assoc]
      exact congrArg _ (congrArg _ (ih ys))

/-- The connective between operands brings in no leaves. -/
lemma leaves_joined (o : Connective) (xss : List (List Piece)) :
    Piece.leaves (joined o xss) = xss.flatMap Piece.leaves := by
  cases xss with
  | nil => rfl
  | cons xs xss =>
    rw [joined, Piece.leaves_append, furtherPieces, Piece.leaves, Piece.leaves, List.flatMap_assoc,
      List.flatMap_cons]
    rfl

/-- The pieces of a formula write its name. -/
lemma Proper.written_pieces (h : Proper p) : Piece.written p.pieces = p.name.toList := by
  induction h with
  | atom a => exact List.append_nil _
  | not _ _ _ ih =>
    rw [pieces_not, Piece.written_cons, ih, name_not, String.toList_append]
    rfl
  | and _ _ _ _ ih =>
    rw [pieces_and, written_joined, name_and, String.toList_intercalate, List.map_map, List.map_map]
    exact congrArg _ (List.map_congr_left ih)
  | or _ _ _ _ ih =>
    rw [pieces_or, written_joined, name_or, String.toList_intercalate, List.map_map, List.map_map]
    exact congrArg _ (List.map_congr_left ih)
  | group _ _ ih =>
    rw [pieces_group, Piece.written_cons, Piece.written_append, ih, name_group,
      String.toList_append, String.toList_append]
    rfl

/-- The leaves among the pieces of a formula are its own. -/
lemma leaves_pieces (p : Formula) : Piece.leaves p.pieces = p.leaves := by
  induction p with
  | top | bot | undef | atom => rfl
  | not p ih =>
    rw [pieces_not, Piece.leaves_cons, ih]
    rfl
  | and ps ih =>
    rw [pieces_and, leaves_joined, List.flatMap_map, leaves_and]
    exact List.flatMap_congr ih
  | or ps ih =>
    rw [pieces_or, leaves_joined, List.flatMap_map, leaves_or]
    exact List.flatMap_congr ih
  | group p ih =>
    rw [pieces_group, Piece.leaves_cons, Piece.leaves_append, ih]
    exact List.append_nil _

/-! ## The order of pieces -/

/-- Pieces can stand where an operand must come next, and end with it. -/
def MakeOperand (xs : List Piece) : Prop :=
  ∀ r, Piece.Alternates false r → Piece.Alternates true (xs ++ r)

/-- Operands with the connective between them make an operand. -/
lemma makeOperand_joined {xss : List (List Piece)} (hn : xss ≠ [])
    (h : ∀ xs ∈ xss, MakeOperand xs) : MakeOperand (joined o xss) := by
  obtain ⟨xs, xss, rfl⟩ := List.exists_cons_of_ne_nil hn
  obtain ⟨first, later⟩ := List.forall_mem_cons.1 h
  intro r hr
  rw [joined, List.append_assoc]
  refine first _ ?_
  clear h hn
  induction xss with
  | nil => exact hr
  | cons ys xss ih =>
    obtain ⟨next, more⟩ := List.forall_mem_cons.1 later
    rw [furtherPieces_cons]
    exact .between o (next _ (ih more))

/-- The pieces of a formula in canonical shape make an operand. -/
lemma Proper.makeOperand (h : Proper p) : MakeOperand p.pieces := by
  have operands {ps : List Formula} (hl : 2 ≤ ps.length) (h : ∀ p ∈ ps, MakeOperand p.pieces)
      (o : Connective) : MakeOperand (joined o (ps.map pieces)) := by
    have some : ps ≠ [] := List.length_pos_iff.1 (Nat.lt_of_succ_lt hl)
    exact makeOperand_joined (mt List.map_eq_nil_iff.1 some) (List.forall_mem_map.2 h)
  induction h with
  | atom a => exact fun r hr => .leaf a hr
  | not _ _ _ ih => exact fun r hr => .not (ih r hr)
  | and hl _ _ _ ih => exact pieces_and _ ▸ operands hl ih .and
  | or hl _ _ _ ih => exact pieces_or _ ▸ operands hl ih .or
  | group _ _ ih =>
    intro r hr
    rw [pieces_group, List.cons_append, List.append_assoc]
    exact .leftParen (ih _ (.rightParen hr))

/-- The pieces of a formula in canonical shape follow each other as they should. -/
lemma Proper.alternates (h : Proper p) : Piece.Alternates true p.pieces := by
  have whole := h.makeOperand [] .nil
  rwa [List.append_nil] at whole

/-! ## The formula of pieces -/

/-- A formula may stand where only connectives of a smaller rank may be open. -/
def Fits (rank : Nat) (p : Formula) : Prop :=
  ∀ (o : Connective) (ps : List Formula), p = o.form ps → o.rank < rank

/-- Pieces do not begin with a connective of a smaller rank. -/
def Ends (rank : Nat) (r : List Piece) : Prop :=
  ∀ o : Connective, o.rank < rank → r.head? ≠ some (.between o)

/-- What begins with no connective of a rank begins with none of a smaller one. -/
lemma Ends.mono {m n : Nat} (h : Ends n r) (hmn : m ≤ n) : Ends m r :=
  fun o ho => h o (Nat.lt_of_lt_of_le ho hmn)

/-- After an operand comes its connective, or what comes after all operands. -/
lemma Ends.furtherPieces (h : Ends (o.rank + 1) r) (xss : List (List Piece)) :
    Ends o.rank (furtherPieces o xss ++ r) := by
  cases xss with
  | nil => exact h.mono (Nat.le_succ _)
  | cons xs xss =>
    rw [furtherPieces_cons]
    rintro o' ho e
    cases e
    exact absurd ho (Nat.lt_irrefl _)

/-- The pieces of a formula tell it from other formulas in its place, and tell where it ends. -/
def Told (rank : Nat) (p : Formula) : Prop :=
  ∀ q, Proper q → Fits rank q → ∀ r r', Ends rank r → Ends rank r' →
    p.pieces ++ r = q.pieces ++ r' → p = q ∧ r = r'

/-- Further operands are told one after the other, up to where the connective ends. -/
lemma eq_of_furtherPieces_eq (hp : ∀ p ∈ ps, Told o.rank p)
    (hq : ∀ q ∈ qs, Proper q ∧ Fits o.rank q)
    (hr : Ends (o.rank + 1) r) (hr' : Ends (o.rank + 1) r')
    (e : furtherPieces o (ps.map pieces) ++ r = furtherPieces o (qs.map pieces) ++ r') :
    ps = qs ∧ r = r' := by
  have no_more {r xs : List Piece} (hr : Ends (o.rank + 1) r) : r ≠ .between o :: xs :=
    fun e => hr o (Nat.lt_succ_self _) (congrArg List.head? e)
  induction ps generalizing qs with
  | nil =>
    cases qs with
    | nil => exact ⟨rfl, e⟩
    | cons q qs =>
      rw [List.map_cons, furtherPieces_cons] at e
      exact absurd e (no_more hr)
  | cons p ps ih =>
    cases qs with
    | nil =>
      rw [List.map_cons, furtherPieces_cons] at e
      exact absurd e.symm (no_more hr')
    | cons q qs =>
      obtain ⟨told, hps⟩ := List.forall_mem_cons.1 hp
      obtain ⟨⟨proper, fits⟩, hqs⟩ := List.forall_mem_cons.1 hq
      rw [List.map_cons, List.map_cons, furtherPieces_cons, furtherPieces_cons] at e
      obtain ⟨rfl, e'⟩ := told q proper fits _ _ (hr.furtherPieces _) (hr'.furtherPieces _)
        (List.cons.inj e).2
      exact (ih hps hqs e').imp_left (congrArg _)

/-- Operands with connectives between them are told one by one. -/
lemma eq_of_joined_eq (hp : ∀ p ∈ ps, Told o.rank p) (hq : ∀ q ∈ qs, Proper q ∧ Fits o.rank q)
    (hr : Ends (o.rank + 1) r) (hr' : Ends (o.rank + 1) r') (hpn : ps ≠ []) (hqn : qs ≠ [])
    (e : joined o (ps.map pieces) ++ r = joined o (qs.map pieces) ++ r') : ps = qs ∧ r = r' := by
  obtain ⟨p, ps, rfl⟩ := List.exists_cons_of_ne_nil hpn
  obtain ⟨q, qs, rfl⟩ := List.exists_cons_of_ne_nil hqn
  obtain ⟨told, hps⟩ := List.forall_mem_cons.1 hp
  obtain ⟨⟨proper, fits⟩, hqs⟩ := List.forall_mem_cons.1 hq
  rw [List.map_cons, List.map_cons, joined, joined, List.append_assoc, List.append_assoc] at e
  obtain ⟨rfl, e'⟩ := told q proper fits _ _ (hr.furtherPieces _) (hr'.furtherPieces _) e
  exact (eq_of_furtherPieces_eq hps hqs hr hr' e').imp_left (congrArg _)

/-- The operands that a formula has for a connective: its own, or the formula itself. -/
def operandsOf : Connective → Formula → List Formula
  | .and, and ps => ps
  | .or, or ps => ps
  | _, p => [p]

/-- A connective has its own operands. -/
lemma operandsOf_form (o : Connective) (ps : List Formula) : operandsOf o (o.form ps) = ps := by
  cases o <;> rfl

/-- A formula that fits as an operand is the only operand there. -/
lemma operandsOf_of_fits (h : Fits o.rank p) : operandsOf o p = [p] := by
  cases o with
  | and =>
    cases p with
    | and ps => exact absurd (h .and ps rfl) (Nat.lt_irrefl _)
    | _ => rfl
  | or =>
    cases p with
    | or ps => exact absurd (h .or ps rfl) (Nat.lt_irrefl _)
    | _ => rfl

/-- The pieces of a formula are those of its operands for a connective, joined by it. -/
lemma pieces_eq_joined (o : Connective) (p : Formula) :
    p.pieces = joined o ((operandsOf o p).map pieces) := by
  have alone : p.pieces = joined o ([p].map pieces) := (List.append_nil _).symm
  cases o with
  | and =>
    cases p with
    | and ps => exact pieces_and ps
    | _ => exact alone
  | or =>
    cases p with
    | or ps => exact pieces_or ps
    | _ => exact alone

/-- The shapes of operands fit where the connective has left an operand open. -/
lemma fits_of_isOperand (h : o.IsOperand p) : Fits o.rank p := by
  rintro o' ps rfl
  cases o with
  | and => cases o' <;> exact h.elim
  | or =>
    cases o' with
    | and => decide
    | or => exact h.elim

/-- A proper formula has two operands or more of a connective, or is an operand of it. -/
lemma Proper.form_or_fits (h : Proper p) (hf : Fits (o.rank + 1) p) :
    (∃ ps, p = o.form ps ∧ 2 ≤ ps.length ∧ ∀ q ∈ ps, Proper q ∧ Fits o.rank q) ∨
      Fits o.rank p := by
  cases h with
  | @and ps hl hs _ hp =>
    cases o with
    | and => exact .inl ⟨ps, rfl, hl, fun q hq => ⟨hp q hq, fits_of_isOperand (hs q hq)⟩⟩
    | or =>
      right
      intro o' qs e
      cases o' with
      | and => decide
      | or => cases e
  | @or ps hl hs _ hp =>
    cases o with
    | and => exact absurd (hf .or ps rfl) (by decide)
    | or => exact .inl ⟨ps, rfl, hl, fun q hq => ⟨hp q hq, fits_of_isOperand (hs q hq)⟩⟩
  | _ =>
    right
    intro o' qs e
    cases o' <;> cases e

/-- The operands of a formula in canonical shape are in canonical shape and fit. -/
lemma Proper.of_operandsOf (h : Proper p) (hf : Fits (o.rank + 1) p) :
    operandsOf o p ≠ [] ∧ ∀ q ∈ operandsOf o p, Proper q ∧ Fits o.rank q := by
  obtain ⟨ps, rfl, hl, hp⟩ | fits := h.form_or_fits hf
  · rw [operandsOf_form]
    exact ⟨List.length_pos_iff.1 (Nat.lt_of_succ_lt hl), hp⟩
  · rw [operandsOf_of_fits fits]
    exact ⟨List.cons_ne_nil _ _, List.forall_mem_singleton.2 ⟨h, fits⟩⟩

/-- A single operand is the formula itself, so that the operands tell the formula. -/
lemma eq_of_operandsOf_eq (hp : Proper p) (hq : Proper q) (hfp : Fits (o.rank + 1) p)
    (hfq : Fits (o.rank + 1) q) (e : operandsOf o p = operandsOf o q) : p = q := by
  have differ {ps : List Formula} {r : Formula} (hl : 2 ≤ ps.length) : ps ≠ [r] := by
    rintro rfl
    exact absurd hl (Nat.lt_irrefl 1)
  obtain ⟨ps, rfl, hpl, _⟩ | fits := hp.form_or_fits hfp
  · rw [operandsOf_form] at e
    obtain ⟨qs, rfl, _⟩ | fits' := hq.form_or_fits hfq
    · rw [operandsOf_form] at e
      rw [e]
    · rw [operandsOf_of_fits fits'] at e
      exact absurd e (differ hpl)
  · rw [operandsOf_of_fits fits] at e
    obtain ⟨qs, rfl, hql, _⟩ | fits' := hq.form_or_fits hfq
    · rw [operandsOf_form] at e
      exact absurd e.symm (differ hql)
    · rw [operandsOf_of_fits fits'] at e
      exact List.singleton_inj.1 e

/-- A formula is told where its operands of a connective are. -/
lemma told_succ (h : Proper p) (hf : Fits (o.rank + 1) p)
    (ho : ∀ q ∈ operandsOf o p, Told o.rank q) : Told (o.rank + 1) p := by
  intro q hq hfq r r' hr hr' e
  rw [pieces_eq_joined o p, pieces_eq_joined o q] at e
  obtain ⟨hqn, operands⟩ := hq.of_operandsOf hfq
  obtain ⟨same, after⟩ := eq_of_joined_eq ho operands hr hr' (h.of_operandsOf hf).1 hqn e
  exact ⟨eq_of_operandsOf_eq h hq hf hfq same, after⟩

/-- No connective has a rank between those of the two connectives. -/
lemma Told.and_to_or (h : Told (Connective.and.rank + 1) p) : Told Connective.or.rank p := by
  have below {o : Connective} (ho : o.rank < Connective.or.rank) :
      o.rank < Connective.and.rank + 1 := by
    cases o <;> revert ho <;> decide
  exact fun q hq hf r r' hr hr' e =>
    h q hq (fun o ps e => below (hf o ps e)) r r' (hr.mono (by decide)) (hr'.mono (by decide)) e

/-- A formula is told in each place where it may stand. -/
structure ToldAnywhere (p : Formula) : Prop where
  conjunct : Fits Connective.and.rank p → Told Connective.and.rank p
  disjunct : Fits Connective.or.rank p → Told Connective.or.rank p
  alone : Told (Connective.or.rank + 1) p

/-- Where no connective is open, every formula fits. -/
lemma fits_alone (p : Formula) : Fits (Connective.or.rank + 1) p := by
  intro o _ _
  cases o <;> decide

/-- What can be a conjunct can stand anywhere. -/
lemma Proper.toldAnywhere (h : Proper p) (hf : Fits Connective.and.rank p)
    (ht : Told Connective.and.rank p) : ToldAnywhere p := by
  have more {m n : Nat} (hf : Fits m p) (hmn : m ≤ n) : Fits n p :=
    fun o ps e => Nat.lt_of_lt_of_le (hf o ps e) hmn
  have disjunct : Told Connective.or.rank p := by
    refine (told_succ h (more hf (by decide)) ?_).and_to_or
    rw [operandsOf_of_fits hf]
    exact List.forall_mem_singleton.2 ht
  refine ⟨fun _ => ht, fun _ => disjunct, told_succ h (fits_alone p) ?_⟩
  rw [operandsOf_of_fits (more hf (by decide))]
  exact List.forall_mem_singleton.2 disjunct

/-- What may stand under a negation fits everywhere. -/
lemma IsNegand.fits (h : IsNegand p) (rank : Nat) : Fits rank p := by
  rintro o ps rfl
  cases o <;> exact h.elim

/-- What can be a conjunct is an atom, a negation or a group. -/
lemma Proper.conjunct_cases (h : Proper p) (hf : Fits Connective.and.rank p) :
    (∃ a, p = .atom a) ∨ (∃ q, p = .not q ∧ Proper q ∧ IsNegand q) ∨
      ∃ q, p = .group q ∧ Proper q := by
  cases h with
  | atom a => exact .inl ⟨a, rfl⟩
  | @not q hn _ hq => exact .inr (.inl ⟨q, rfl, hq, hn⟩)
  | @group q _ hq => exact .inr (.inr ⟨q, rfl, hq⟩)
  | @and ps => exact absurd (hf .and ps rfl) (by decide)
  | @or ps => exact absurd (hf .or ps rfl) (by decide)

/-- An atom is told by its piece. -/
lemma told_atom (a : Atom) : Told Connective.and.rank (atom a) := by
  intro q hq hf r r' _ _ e
  obtain ⟨b, rfl⟩ | ⟨q, rfl, _⟩ | ⟨q, rfl, _⟩ := hq.conjunct_cases hf
  · obtain ⟨same, after⟩ := List.cons.inj e
    exact ⟨congrArg atom (Piece.leaf.inj same), after⟩
  · cases e
  · cases e

/-- A negation is told by its sign and the formula after it. -/
lemma told_not (hn : IsNegand p) (h : ToldAnywhere p) : Told Connective.and.rank (not p) := by
  intro q hq hf r r' hr hr' e
  obtain ⟨b, rfl⟩ | ⟨q, rfl, inner, hn'⟩ | ⟨q, rfl, _⟩ := hq.conjunct_cases hf
  · cases e
  · obtain ⟨rfl, after⟩ :=
      h.conjunct (hn.fits _) q inner (hn'.fits _) r r' hr hr' (List.cons.inj e).2
    exact ⟨rfl, after⟩
  · cases e

/-- Parentheses are told by their signs and the formula between them. -/
lemma told_group (h : ToldAnywhere p) : Told Connective.and.rank (group p) := by
  intro q hq hf r r' _ _ e
  have closed (r : List Piece) : Ends (Connective.or.rank + 1) (.rightParen :: r) :=
    fun _ _ => nofun
  obtain ⟨b, rfl⟩ | ⟨q, rfl, _⟩ | ⟨q, rfl, inner⟩ := hq.conjunct_cases hf
  · cases e
  · cases e
  · rw [pieces_group, pieces_group, List.cons_append, List.cons_append, List.append_assoc,
      List.append_assoc] at e
    obtain ⟨rfl, after⟩ := h.alone q inner (fits_alone q) _ _ (closed r) (closed r')
      (List.cons.inj e).2
    exact ⟨rfl, (List.cons.inj after).2⟩

/-- A formula in canonical shape is told in each place where it may stand. -/
lemma Proper.told (h : Proper p) : ToldAnywhere p := by
  have fits {p : Formula} (h : ∀ o ps, p ≠ Connective.form o ps) : Fits Connective.and.rank p :=
    fun o ps e => absurd e (h o ps)
  induction h with
  | atom a =>
    exact (Proper.atom a).toldAnywhere (fits fun o _ => by cases o <;> exact nofun) (told_atom a)
  | not hn hc hp ih =>
    exact (Proper.not hn hc hp).toldAnywhere (fits fun o _ => by cases o <;> exact nofun)
      (told_not hn ih)
  | group hg hp ih =>
    exact (Proper.group hg hp).toldAnywhere (fits fun o _ => by cases o <;> exact nofun)
      (told_group ih)
  | @and ps hl hs ho hp ih =>
    have proper : Proper (.and ps) := .and hl hs ho hp
    have fits : Fits (Connective.and.rank + 1) (.and ps) := by
      rintro (_ | _) qs e
      · decide
      · cases e
    have disjunct := (told_succ proper fits fun q hq =>
      (ih q hq).conjunct (fits_of_isOperand (o := .and) (hs q hq))).and_to_or
    refine ⟨fun hf => ?_, fun _ => disjunct, told_succ proper (fits_alone _) ?_⟩
    · exact absurd (hf .and ps rfl) (Nat.lt_irrefl _)
    · exact List.forall_mem_singleton.2 disjunct
  | @or ps hl hs ho hp ih =>
    refine ⟨fun hf => ?_, fun hf => ?_, told_succ (.or hl hs ho hp) (fits_alone _) fun q hq => ?_⟩
    · exact absurd (hf .or ps rfl) (by decide)
    · exact absurd (hf .or ps rfl) (Nat.lt_irrefl _)
    · exact (ih q hq).disjunct (fits_of_isOperand (o := .or) (hs q hq))

/-! ## Names -/

/-- Formulas in canonical shape with one name and the same leaves are equal. -/
theorem eq_of_name_eq (hp : Proper p) (hq : Proper q) (hn : p.name = q.name)
    (hl : p.leaves = q.leaves) : p = q := by
  have pieces : p.pieces = q.pieces := by
    refine Piece.eq_of_written_eq hp.alternates hq.alternates ?_ ?_
    · rw [hp.written_pieces, hq.written_pieces, hn]
    · rw [leaves_pieces, leaves_pieces, hl]
  have alone : Ends (Connective.or.rank + 1) [] := fun _ _ => nofun
  exact (hp.told.alone q hq (fits_alone q) [] [] alone alone (congrArg (· ++ []) pieces)).1

/-! ## The order of operands -/

/-- Different atoms have different numbers. -/
def Identified (as : List Atom) : Prop := ∀ a ∈ as, ∀ b ∈ as, a.id = b.id → a = b

/-- Lists of atoms that are told apart by their numbers are equal when the numbers are. -/
lemma Identified.eq_of_map_id_eq {all as bs : List Atom} (h : Identified all)
    (ha : ∀ a ∈ as, a ∈ all) (hb : ∀ b ∈ bs, b ∈ all) (e : as.map Atom.id = bs.map Atom.id) :
    as = bs := by
  induction as generalizing bs with
  | nil => exact (List.map_eq_nil_iff.1 e.symm).symm
  | cons a as ih =>
    cases bs with
    | nil => cases e
    | cons b bs =>
      obtain ⟨first, later⟩ := List.cons.inj e
      obtain ⟨ha, has⟩ := List.forall_mem_cons.1 ha
      obtain ⟨hb, hbs⟩ := List.forall_mem_cons.1 hb
      rw [h a ha b hb first, ih has hbs later]

/-- Operands of which neither stands after the other are the same. -/
lemma NotAfter.antisymm {all : List Atom} (h : Identified all) (hp : Proper p) (hq : Proper q)
    (hpl : ∀ a ∈ p.leaves, a ∈ all) (hql : ∀ a ∈ q.leaves, a ∈ all) (hpq : NotAfter p q)
    (hqp : NotAfter q p) : p = q := by
  obtain ⟨name, ids⟩ := NotAfter.tie_iff.1 ⟨hpq, hqp⟩
  exact eq_of_name_eq hp hq name (h.eq_of_map_id_eq hpl hql ids)

/-- Operands in any order have the same canonical order. -/
theorem sortOperands_eq_of_perm {all : List Atom} (h : Identified all) (hp : ∀ p ∈ ps, Proper p)
    (hl : ∀ p ∈ ps, ∀ a ∈ p.leaves, a ∈ all) (perm : ps.Perm qs) :
    sortOperands ps = sortOperands qs := by
  have mem {p : Formula} (hp : p ∈ sortOperands ps) : p ∈ ps := mem_sortOperands.1 hp
  have mem' {q : Formula} (hq : q ∈ sortOperands qs) : q ∈ ps :=
    perm.mem_iff.2 (mem_sortOperands.1 hq)
  refine List.Perm.eq_of_pairwise (fun p q hps hqs => ?_) (sorted_sortOperands ps)
    (sorted_sortOperands qs)
    ((sortOperands_perm ps).trans (perm.trans (sortOperands_perm qs).symm))
  exact NotAfter.antisymm h (hp p (mem hps)) (hp q (mem' hqs)) (hl p (mem hps)) (hl q (mem' hqs))

end Formula

end RuleFormula
