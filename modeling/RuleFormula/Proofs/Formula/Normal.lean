import RuleFormula.Proofs.Formula.Order

/-!
# Normal formulas

A formula is normal when it is a constant, or is `Proper`: it holds no constant, every conjunction
and disjunction in it has two operands or more, of the right shapes and in canonical order, every
negation stands over something that can be negated, and parentheses stand around conjunctions and
disjunctions only. Grouping and negation give a normal formula for a normal one, and so do the
operands of a normal formula and what they give to a connective.
-/

namespace RuleFormula

namespace Formula

/-! ## Shapes of operands -/

/-- The two truth values and the undefined formula. -/
def IsConstant : Formula → Prop
  | top | bot | undef => True
  | _ => False

/-- The shapes that an operand of a conjunction may have. -/
def IsConjunct : Formula → Prop
  | atom _ | not _ | group (or _) => True
  | _ => False

/-- The shapes that an operand of a disjunction may have. -/
def IsDisjunct : Formula → Prop
  | atom _ | not _ | and _ => True
  | _ => False

/-- The shapes that the operand of a negation may have. -/
def IsNegand : Formula → Prop
  | atom _ | group _ => True
  | _ => False

/-- The shapes that stand in parentheses. -/
def IsGroupable : Formula → Prop
  | and _ | or _ => True
  | _ => False

/-- A formula in canonical shape that is no constant. -/
inductive Proper : Formula → Prop
  | atom (a : Atom) : Proper (.atom a)
  | not {p : Formula} : IsNegand p → p.canNegate = true → Proper p → Proper (.not p)
  | and {ps : List Formula} : 2 ≤ ps.length → (∀ p ∈ ps, IsConjunct p) → Sorted ps →
    (∀ p ∈ ps, Proper p) → Proper (.and ps)
  | or {ps : List Formula} : 2 ≤ ps.length → (∀ p ∈ ps, IsDisjunct p) → Sorted ps →
    (∀ p ∈ ps, Proper p) → Proper (.or ps)
  | group {p : Formula} : IsGroupable p → Proper p → Proper (.group p)

/-- A formula in canonical shape. -/
def IsNormal (p : Formula) : Prop := IsConstant p ∨ Proper p

variable {p q : Formula} {ps qs : List Formula}

/-- There are three constants. -/
lemma IsConstant.eq (h : IsConstant p) : p = top ∨ p = bot ∨ p = undef := by
  cases p with
  | top => exact .inl rfl
  | bot => exact .inr (.inl rfl)
  | undef => exact .inr (.inr rfl)
  | _ => exact h.elim

/-- A defined formula in canonical shape is a truth value or no constant. -/
lemma IsNormal.of_defined (h : IsNormal p) (hd : p.isDefined = true) :
    p = top ∨ p = bot ∨ Proper p := by
  obtain constant | proper := h
  · obtain rfl | rfl | rfl := constant.eq
    · exact .inl rfl
    · exact .inr (.inl rfl)
    · cases hd
  · exact .inr (.inr proper)

/-! ## Grouping -/

/-- Parentheses where they are needed keep the canonical shape. -/
lemma Proper.grouped (h : Proper p) : Proper p.grouped := by
  cases h with
  | atom a => exact .atom a
  | not hn hc hp => exact .not hn hc hp
  | and hl hs ho hp => exact .group trivial (.and hl hs ho hp)
  | or hl hs ho hp => exact .group trivial (.or hl hs ho hp)
  | group hg hp => exact .group hg hp

/-- Parentheses are put around no constant. -/
lemma IsNormal.grouped (h : IsNormal p) : IsNormal p.grouped := by
  obtain constant | proper := h
  · obtain rfl | rfl | rfl := constant.eq <;> exact .inl trivial
  · exact .inr proper.grouped

/-- What stands in parentheses is in canonical shape. -/
lemma Proper.ungrouped (h : Proper p) : Proper p.ungrouped := by
  cases h with
  | group _ hp => exact hp
  | atom a => exact .atom a
  | not hn hc hp => exact .not hn hc hp
  | and hl hs ho hp => exact .and hl hs ho hp
  | or hl hs ho hp => exact .or hl hs ho hp

/-! ## Parts of operands -/

/-- What a formula in canonical shape gives to a conjunction has the shape of its operands. -/
lemma Proper.of_mem_conjuncts (h : Proper p) (hq : q ∈ conjuncts p) : Proper q ∧ IsConjunct q := by
  have alone {r : Formula} (hr : Proper r) (hs : IsConjunct r) (hq : q ∈ [r]) :
      Proper q ∧ IsConjunct q := by
    rw [List.mem_singleton.1 hq]
    exact ⟨hr, hs⟩
  cases h with
  | atom a => exact alone (.atom a) trivial hq
  | not hn hc hp => exact alone (.not hn hc hp) trivial hq
  | and _ hs _ hp => exact ⟨hp q hq, hs q hq⟩
  | or hl hs ho hp => exact alone (Proper.or hl hs ho hp).grouped trivial hq
  | group hg hp =>
    cases hp with
    | and _ hs _ hp => exact ⟨hp q hq, hs q hq⟩
    | or hl hs ho hp => exact alone (Proper.or hl hs ho hp).grouped trivial hq
    | _ => exact hg.elim

/-- What a proper formula without parentheses around it gives to a disjunction. -/
lemma Proper.of_mem_disjunctsUngrouped (h : Proper p) (hg : ∀ r, p ≠ .group r)
    (hq : q ∈ disjunctsUngrouped p) : Proper q ∧ IsDisjunct q := by
  have alone {r : Formula} (hr : Proper r) (hs : IsDisjunct r) (hq : q ∈ [r]) :
      Proper q ∧ IsDisjunct q := by
    rw [List.mem_singleton.1 hq]
    exact ⟨hr, hs⟩
  cases h with
  | atom a => exact alone (.atom a) trivial hq
  | not hn hc hp => exact alone (.not hn hc hp) trivial hq
  | and hl hs ho hp => exact alone (.and hl hs ho hp) trivial hq
  | or _ hs _ hp => exact ⟨hp q hq, hs q hq⟩
  | group _ _ => exact absurd rfl (hg _)

/-- There are no parentheses within parentheses. -/
lemma Proper.ungrouped_ne_group (h : Proper p) (r : Formula) : p.ungrouped ≠ .group r := by
  cases h with
  | group hg _ =>
    rintro rfl
    exact hg
  | _ => exact nofun

/-- What a formula in canonical shape gives to a disjunction has the shape of its operands. -/
lemma Proper.of_mem_disjuncts (h : Proper p) (hq : q ∈ disjuncts p) : Proper q ∧ IsDisjunct q :=
  h.ungrouped.of_mem_disjunctsUngrouped h.ungrouped_ne_group hq

/-- Two operands or more are sorted and put under the node. -/
lemma assemble_eq {node : List Formula → Formula} {neutral : Formula} (h : 2 ≤ ps.length) :
    assemble node neutral ps = node (sortOperands ps) := by
  match ps, h with
  | _ :: _ :: _, _ => rfl

/-- Only the canonical order of the operands matters. -/
lemma assemble_congr {node : List Formula → Formula} {neutral : Formula}
    (h : sortOperands ps = sortOperands qs) :
    assemble node neutral ps = assemble node neutral qs := by
  have length := congrArg List.length h
  rw [length_sortOperands, length_sortOperands] at length
  match ps, qs, length with
  | [], [], _ => rfl
  | [p], [q], _ =>
    rw [sortOperands_singleton, sortOperands_singleton] at h
    rw [h]
  | p :: p' :: ps, q :: q' :: qs, _ =>
    rw [assemble_eq (Nat.le_add_left 2 _), assemble_eq (Nat.le_add_left 2 _), h]

/-- What is assembled is the neutral constant, an operand, or a node over two operands or more. -/
lemma assemble_cases {motive : Formula → Prop} {node : List Formula → Formula} {neutral : Formula}
    (hn : motive neutral) (hp : ∀ p ∈ ps, motive p)
    (hs : 2 ≤ ps.length → motive (node (sortOperands ps))) : motive (assemble node neutral ps) := by
  match ps with
  | [] => exact hn
  | [p] => exact hp p (List.mem_singleton_self p)
  | p :: q :: ps => exact hs (Nat.le_add_left 2 ps.length)

/-- An operand of the right shape gives itself to a conjunction. -/
lemma IsConjunct.conjuncts_eq (h : IsConjunct p) : conjuncts p = [p] := by
  cases p with
  | atom _ | not _ => rfl
  | group p =>
    cases p with
    | or _ => rfl
    | _ => exact h.elim
  | _ => exact h.elim

/-- An operand of the right shape gives itself to a disjunction. -/
lemma IsDisjunct.disjuncts_eq (h : IsDisjunct p) : disjuncts p = [p] := by
  cases p with
  | atom _ | not _ | and _ => rfl
  | _ => exact h.elim

/-! ## Negation -/

/-- What cannot be negated has an undefined negation. -/
lemma negate_of_not_canNegate (h : p.canNegate = false) : negate p = undef := by
  rw [negate.eq_def, h, if_neg Bool.false_ne_true]

/-- The negation of an atom stands in front of it. -/
lemma negate_atom {a : Atom} (h : (atom a).canNegate = true) :
    negate (atom a) = not (atom a) := by
  rw [negate.eq_def, h, if_pos rfl]

/-- A second negation takes the first away, with the parentheses that it needed. -/
lemma negate_not (h : (not p).canNegate = true) : negate (not p) = p.ungrouped := by
  rw [negate.eq_def, h, if_pos rfl]

/-- The negation of a conjunction puts parentheses around it. -/
lemma negate_and (h : (and ps).canNegate = true) : negate (and ps) = not (group (and ps)) := by
  rw [negate.eq_def, h, if_pos rfl]

/-- The negation of a disjunction puts parentheses around it. -/
lemma negate_or (h : (or ps).canNegate = true) : negate (or ps) = not (group (or ps)) := by
  rw [negate.eq_def, h, if_pos rfl]

/-- A negation goes into parentheses, which stay where they are needed. -/
lemma negate_group (h : (group p).canNegate = true) :
    negate (group p) = (negate p).grouped := by
  rw [negate.eq_def, h, if_pos rfl]

/-- The negation of a conjunction or disjunction stands in front of the grouped node. -/
lemma IsGroupable.negate_eq (hg : IsGroupable p) (h : p.canNegate = true) :
    negate p = not (group p) := by
  cases p with
  | and ps => exact negate_and h
  | or ps => exact negate_or h
  | _ => exact hg.elim

/-- A negation puts the parentheses that it needs. -/
lemma negate_grouped (p : Formula) : p.grouped.negate = p.negate := by
  have groupable {p : Formula} (hg : IsGroupable p) : (group p).negate = p.negate := by
    cases hc : p.canNegate with
    | false =>
      rw [negate_of_not_canNegate hc, negate_of_not_canNegate ((canNegate_group p).trans hc)]
    | true =>
      rw [negate_group hc, hg.negate_eq hc]
      rfl
  cases p with
  | and ps => exact groupable trivial
  | or ps => exact groupable trivial
  | _ => rfl

/-- A negation keeps the canonical shape. -/
lemma Proper.negate (h : Proper p) (hc : p.canNegate = true) : Proper p.negate := by
  cases h with
  | atom a =>
    rw [negate_atom hc]
    exact .not trivial hc (.atom a)
  | not _ _ hp =>
    rw [negate_not hc]
    exact hp.ungrouped
  | and hl hs ho hp =>
    rw [negate_and hc]
    exact .not trivial hc (Proper.and hl hs ho hp).grouped
  | or hl hs ho hp =>
    rw [negate_or hc]
    exact .not trivial hc (Proper.or hl hs ho hp).grouped
  | group hg hp =>
    rw [negate_group hc, hg.negate_eq hc]
    exact .not trivial hc (.group hg hp)

/-- A negation of a constant is a constant, and keeps the canonical shape otherwise. -/
lemma IsNormal.negate (h : IsNormal p) : IsNormal p.negate := by
  by_cases hc : p.canNegate = true
  · obtain constant | proper := h
    · obtain rfl | rfl | rfl := constant.eq <;> exact .inl trivial
    · exact .inr (proper.negate hc)
  · rw [negate_of_not_canNegate (Bool.not_eq_true _ ▸ hc)]
    exact .inl trivial

/-! ## Operands -/

/-- The operands of a formula in canonical shape are in canonical shape. -/
lemma Proper.children (h : Proper p) (hq : q ∈ p.children) : Proper q := by
  cases h with
  | atom a => exact absurd hq List.not_mem_nil
  | not _ _ hp => exact List.mem_singleton.1 hq ▸ hp
  | and _ _ _ hp => exact hp q hq
  | or _ _ _ hp => exact hp q hq
  | group _ hp => exact List.mem_singleton.1 hq ▸ hp

/-- The operands of a formula in canonical shape are no constants. -/
lemma IsNormal.children (h : IsNormal p) (hq : q ∈ p.children) : Proper q := by
  obtain constant | proper := h
  · obtain rfl | rfl | rfl := constant.eq <;> exact absurd hq List.not_mem_nil
  · exact proper.children hq

end Formula

end RuleFormula
