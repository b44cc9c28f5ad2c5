import RuleFormula.Proofs.Formula.Constructible

/-!
# The operations on formulas that are normal already

A formula that can be made is a fixed point of the operations that it consists of: built again from
its leaves, it is the same formula (`rebuilt_eq`). A single operand of a connective is given back
only up to the parentheses around it (`operand_alone`). A disjunction gives its parentheses to a
conjunction even where no other operand is there, and the parentheses that are of no use to the
connective are dropped.
-/

namespace RuleFormula

open Formula
open Reading (Connective)

namespace Formula

variable {p q : Formula} {ps : List Formula}

/-- Operands in canonical order are put under the node as they are. -/
lemma assemble_of_sorted {node : List Formula → Formula} {neutral : Formula} (hl : 2 ≤ ps.length)
    (hs : Sorted ps) : assemble node neutral ps = node ps := by
  rw [assemble_eq hl, hs.sortOperands_eq]

/-! ## Single operands -/

/-- The conjunction of one formula: parentheses are put around a disjunction and taken away from a
conjunction. -/
def conjunctAlone : Formula → Formula
  | or ps => group (or ps)
  | group (and ps) => and ps
  | p => p

/-- A formula that is no disjunction and no conjunction in parentheses is its own conjunction. -/
lemma conjunctAlone_eq_self_iff :
    p.conjunctAlone = p ↔ ∀ ps, p ≠ or ps ∧ p ≠ group (and ps) := by
  constructor
  · intro e ps
    constructor
    · rintro rfl
      cases e
    · rintro rfl
      cases e
  · intro h
    unfold conjunctAlone
    split
    · next ps => exact absurd rfl (h ps).1
    · next ps => exact absurd rfl (h ps).2
    · rfl

/-- A formula without parentheses around it has none to lose. -/
lemma ungrouped_eq_self_iff : p.ungrouped = p ↔ ∀ q, p ≠ group q := by
  constructor
  · rintro e q rfl
    have smaller : sizeOf q < sizeOf (group q) := by simp
    exact absurd (congrArg sizeOf e) (Nat.ne_of_lt smaller)
  · intro h
    unfold ungrouped
    split
    · next q => exact absurd rfl (h q)
    · rfl

end Formula

namespace Reading.Connective

variable {o : Connective} {p : Formula} {ps : List Formula}

/-- A neutral constant in front of operands makes no difference. -/
lemma node_cons_neutral (o : Connective) (ps : List Formula) :
    o.node (o.neutral :: ps) = o.node ps := by
  have parts : (o.neutral :: ps).flatMap o.parts = ps.flatMap o.parts := by
    rw [List.flatMap_cons, parts_neutral, List.nil_append]
  have undefined : undef ∈ o.neutral :: ps ↔ undef ∈ ps := by
    rw [List.mem_cons, or_iff_right]
    cases o <;> exact nofun
  obtain ⟨hu, e⟩ | ⟨hu, ha, e⟩ | ⟨hu, ha, e⟩ := o.node_cases ps
  · obtain ⟨_, e'⟩ | ⟨hu', _⟩ | ⟨hu', _⟩ := o.node_cases (o.neutral :: ps)
    · rw [e, e']
    · exact absurd (undefined.2 hu) hu'
    · exact absurd (undefined.2 hu) hu'
  · rw [e, node_eq_absorbing (mt undefined.1 hu) (parts ▸ ha)]
  · rw [e, node_eq_assemble (mt undefined.1 hu) (parts ▸ ha), parts]

/-- What the connective makes of one formula. -/
def alone : Connective → Formula → Formula
  | and => conjunctAlone
  | or => ungrouped

/-- The parts of one formula are assembled to what the connective makes of it alone. -/
lemma assemble_parts (h : Proper p) :
    assemble o.form o.neutral (o.parts p) = o.alone p := by
  cases h with
  | atom a => cases o <;> rfl
  | not => cases o <;> rfl
  | and hl _ hs _ =>
    cases o with
    | and => exact assemble_of_sorted hl hs
    | or => rfl
  | or hl _ hs _ =>
    cases o with
    | and => rfl
    | or => exact assemble_of_sorted hl hs
  | group hg hp =>
    cases hp with
    | and hl _ hs _ =>
      cases o with
      | and => exact assemble_of_sorted hl hs
      | or => rfl
    | or hl _ hs _ =>
      cases o with
      | and => rfl
      | or => exact assemble_of_sorted hl hs
    | _ => exact hg.elim

/-- What a connective makes of a single operand in canonical shape. -/
lemma node_singleton (o : Connective) (h : IsNormal p) : o.node [p] = o.alone p := by
  obtain constant | proper := h
  · obtain rfl | rfl | rfl := constant.eq <;> cases o <;> decide
  · have parts : [p].flatMap o.parts = o.parts p := List.flatMap_singleton _ _
    rw [node_eq_assemble, parts, assemble_parts proper]
    · intro hu
      exact proper.not_isConstant (List.mem_singleton.1 hu ▸ trivial)
    · rw [parts]
      intro ha
      exact (of_mem_parts proper ha).1.not_isConstant o.isConstant_absorbing

/-- A neutral operand beside it does not change what a connective makes of one formula. -/
lemma all_singleton (o : Connective) (h : IsNormal p) :
    o.all [p] = .ok (o.alone p) ∧ o.all [o.neutral, p] = .ok (o.alone p) := by
  constructor
  · rw [o.all_eq (List.cons_ne_nil _ _), o.node_singleton h]
  · rw [o.all_eq (List.cons_ne_nil _ _), node_cons_neutral, o.node_singleton h]

end Reading.Connective

namespace Formula

variable {p : Formula} {ps : List Formula}

/-- Operands in canonical shape and order make a formula of their connective. -/
lemma constructible_form {o : Connective} (hl : 2 ≤ ps.length) (hc : ∀ p ∈ ps, o.IsOperand p)
    (hs : Sorted ps) (hm : ∀ p ∈ ps, Constructible p) : Constructible (o.form ps) := by
  rw [← Connective.node_eq_form hl hc hs]
  exact Constructible.node (List.length_pos_iff.1 (Nat.lt_of_succ_lt hl)) hm

/-- Two atoms in the order of their names make a formula of either connective. -/
lemma constructible_atoms (o : Connective) {a b : Atom} (h : a.name < b.name) :
    Constructible (o.form [atom a, atom b]) := by
  have operand (c : Atom) : o.IsOperand (atom c) := by cases o <;> trivial
  exact constructible_form (le_refl 2)
    (List.forall_mem_cons.2 ⟨operand a, List.forall_mem_singleton.2 (operand b)⟩)
    (List.pairwise_pair.2 (notAfter_iff.2 (.inl h)))
    (List.forall_mem_cons.2 ⟨.atom a, List.forall_mem_singleton.2 (.atom b)⟩)

/-- A single operand of a conjunction or disjunction, with the neutral constant or without it, is
the result up to parentheses: a disjunction gives no parentheses around the result, and a
conjunction has them around a disjunction and not around a conjunction. -/
theorem operand_alone (h : Constructible p) :
    (conjAll [p] = .ok p.conjunctAlone ∧ conjAll [top, p] = .ok p.conjunctAlone ∧
      (p.conjunctAlone = p ↔ ∀ ps, p ≠ or ps ∧ p ≠ group (and ps))) ∧
    (disjAll [p] = .ok p.ungrouped ∧ disjAll [bot, p] = .ok p.ungrouped ∧
      (p.ungrouped = p ↔ ∀ q, p ≠ group q)) := by
  obtain ⟨conj, conj_top⟩ := Connective.and.all_singleton h.isNormal
  obtain ⟨disj, disj_bot⟩ := Connective.or.all_singleton h.isNormal
  exact ⟨⟨conj, conj_top, conjunctAlone_eq_self_iff⟩, ⟨disj, disj_bot, ungrouped_eq_self_iff⟩⟩

/-- A disjunction alone gets parentheses from a conjunction and keeps none from a disjunction. -/
theorem operand_alone_disjunction :
    Constructible (or [atom ⟨0, "x", true⟩, atom ⟨1, "y", true⟩]) ∧
    conjAll [or [atom ⟨0, "x", true⟩, atom ⟨1, "y", true⟩]] =
      .ok (group (or [atom ⟨0, "x", true⟩, atom ⟨1, "y", true⟩])) ∧
    disjAll [bot, or [atom ⟨0, "x", true⟩, atom ⟨1, "y", true⟩]] =
      .ok (or [atom ⟨0, "x", true⟩, atom ⟨1, "y", true⟩]) := by
  have made := constructible_atoms .or (a := ⟨0, "x", true⟩) (b := ⟨1, "y", true⟩) (by decide)
  exact ⟨made, (operand_alone made).1.1, (operand_alone made).2.2.1⟩

/-- A conjunction in parentheses loses them as a single operand. -/
theorem not_operand_alone_eq_self :
    ¬ ∀ p, Constructible p → conjAll [p] = .ok p ∧ disjAll [p] = .ok p ∧
      conjAll [top, p] = .ok p ∧ disjAll [bot, p] = .ok p := by
  intro h
  have made := constructible_atoms .and (a := ⟨0, "x", true⟩) (b := ⟨1, "y", true⟩) (by decide)
  have same := (h _ made.grouped).1
  have alone := (Connective.and.all_singleton made.grouped.isNormal).1
  cases same.symm.trans alone

/-! ## Building a formula again -/

/-- A node made of its operands by the operations. -/
def rebuildLayer : Layer (Except Fault Formula) → Except Fault Formula
  | .top => .ok .top
  | .bot => .ok .bot
  | .undef => .ok .undef
  | .atom a => .ok (.atom a)
  | .not x => x.map negate
  | .and xs => xs.mapM id >>= conjAll
  | .or xs => xs.mapM id >>= disjAll
  | .group x => x.map grouped

/-- A formula built again from its leaves to its root, by the operations. -/
def rebuild (p : Formula) : Except Fault Formula := p.fold rebuildLayer

/-- A connective is built again over its operands built again. -/
lemma rebuild_form (o : Connective) (ps : List Formula) :
    rebuild (o.form ps) = ps.mapM rebuild >>= o.all := by
  have operands : (foldAll rebuildLayer ps).mapM id = ps.mapM rebuild := by
    rw [foldAll_eq_map, List.mapM_map]
    rfl
  cases o with
  | and => exact congrArg (· >>= conjAll) operands
  | or => exact congrArg (· >>= disjAll) operands

/-- Operands in canonical shape and order are combined to the formula that has them. -/
lemma all_eq_form {o : Connective} (hl : 2 ≤ ps.length) (hc : ∀ p ∈ ps, o.IsOperand p)
    (hs : Sorted ps) : o.all ps = .ok (o.form ps) := by
  have some : ps ≠ [] := List.length_pos_iff.1 (Nat.lt_of_succ_lt hl)
  rw [o.all_eq some, Connective.node_eq_form hl hc hs]

/-- What stands under a negation is negated by putting the negation in front of it. -/
lemma Proper.negate_negand (h : Proper p) (hn : IsNegand p) (hc : p.canNegate = true) :
    p.negate = .not p := by
  cases h with
  | atom a => exact negate_atom hc
  | group hg _ =>
    rw [negate_group hc, hg.negate_eq hc]
    rfl
  | _ => exact hn.elim

/-- A formula in canonical shape is built again as it is. -/
lemma rebuild_of_proper (h : Proper p) : p.rebuild = .ok p := by
  have combined {o : Connective} {ps : List Formula} (hl : 2 ≤ ps.length)
      (hc : ∀ p ∈ ps, o.IsOperand p) (hs : Sorted ps) (ih : ∀ p ∈ ps, p.rebuild = .ok p) :
      rebuild (o.form ps) = .ok (o.form ps) := by
    rw [rebuild_form, mapM_eq_ok (g := id) ih, List.map_id]
    exact all_eq_form hl hc hs
  induction h with
  | atom a => rfl
  | @not p hn hc hp ih =>
    have again : rebuild (not p) = p.rebuild.map negate := rfl
    rw [again, ih]
    exact congrArg Except.ok (hp.negate_negand hn hc)
  | and hl hc hs _ ih => exact combined (o := .and) hl hc hs ih
  | or hl hc hs _ ih => exact combined (o := .or) hl hc hs ih
  | @group p hg _ ih =>
    have again : rebuild (group p) = p.rebuild.map grouped := rfl
    rw [again, ih]
    cases p with
    | and _ | or _ => rfl
    | _ => exact hg.elim

/-- A formula that can be made is the same when it is built again from its leaves; so its operands
make it, in the order in which they stand. -/
theorem rebuilt_eq (h : Constructible p) :
    p.rebuild = .ok p ∧ (∀ ps, p = and ps → conjAll ps = .ok p) ∧
      (∀ ps, p = or ps → disjAll ps = .ok p) := by
  obtain constant | proper := h.isNormal
  · cases p <;> first | exact constant.elim | exact ⟨rfl, nofun, nofun⟩
  · refine ⟨rebuild_of_proper proper, ?_, ?_⟩
    · rintro ps rfl
      cases proper with
      | and hl hc hs _ => exact all_eq_form (o := .and) hl hc hs
    · rintro ps rfl
      cases proper with
      | or hl hc hs _ => exact all_eq_form (o := .or) hl hc hs

/-- A negation over a conjunction with a disjunction in it. -/
theorem rebuilt_negated_conjunction :
    Constructible (not (group (and [group (or [atom ⟨0, "x", true⟩, atom ⟨1, "y", true⟩]),
      atom ⟨2, "b", true⟩]))) ∧
    rebuild (not (group (and [group (or [atom ⟨0, "x", true⟩, atom ⟨1, "y", true⟩]),
      atom ⟨2, "b", true⟩]))) =
      .ok (not (group (and [group (or [atom ⟨0, "x", true⟩, atom ⟨1, "y", true⟩]),
        atom ⟨2, "b", true⟩]))) := by
  have disjunction : Constructible (or [atom ⟨0, "x", true⟩, atom ⟨1, "y", true⟩]) :=
    constructible_atoms .or (by decide)
  have sorted : Sorted [group (or [atom ⟨0, "x", true⟩, atom ⟨1, "y", true⟩]),
      atom ⟨2, "b", true⟩] := List.pairwise_pair.2 (notAfter_iff.2 (.inl (by decide)))
  have conjunction : Constructible (and [group (or [atom ⟨0, "x", true⟩, atom ⟨1, "y", true⟩]),
      atom ⟨2, "b", true⟩]) :=
    constructible_form (o := .and) (le_refl 2)
      (List.forall_mem_cons.2 ⟨trivial, List.forall_mem_singleton.2 trivial⟩) sorted
      (List.forall_mem_cons.2 ⟨disjunction.grouped, List.forall_mem_singleton.2 (.atom _)⟩)
  have made := conjunction.negate
  exact ⟨made, (rebuilt_eq made).1⟩

end Formula

end RuleFormula
