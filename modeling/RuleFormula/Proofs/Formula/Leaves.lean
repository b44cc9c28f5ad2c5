import RuleFormula.Proofs.Formula.Connectives
import RuleFormula.Proofs.Reading.Closure

/-!
# The atoms of what is made

A connective that is not absorbed keeps the leaves of its operands, up to their order
(`leaves_node_perm`). So the operations on formulas bring in no atoms: what holds of all atoms of
the operands holds of all atoms of the result (`over_kept`).
-/

namespace RuleFormula

open Reading (Connective)

namespace Formula

variable {o : Connective} {p q : Formula} {ps : List Formula} {a : Atom} {P : Atom → Prop}

/-- The atoms of a formula right below a node are atoms of the node. -/
lemma mem_leaves_of_children (hq : q ∈ p.children) (ha : a ∈ q.leaves) : a ∈ p.leaves := by
  cases p with
  | not p =>
    obtain rfl := List.mem_singleton.1 hq
    exact ha
  | group p =>
    obtain rfl := List.mem_singleton.1 hq
    exact ha
  | and ps => exact leaves_and ps ▸ List.mem_flatMap.2 ⟨q, hq, ha⟩
  | or ps => exact leaves_or ps ▸ List.mem_flatMap.2 ⟨q, hq, ha⟩
  | _ => exact absurd hq List.not_mem_nil

/-- Parentheses that are put around a formula bring in no atoms. -/
@[simp] lemma leaves_grouped (p : Formula) : p.grouped.leaves = p.leaves := by
  cases p <;> rfl

/-- Parentheses that are taken away take no atoms with them. -/
@[simp] lemma leaves_ungrouped (p : Formula) : p.ungrouped.leaves = p.leaves := by
  cases p <;> rfl

/-- The leaves of a connective are those of its operands. -/
lemma leaves_form (o : Connective) (ps : List Formula) :
    (o.form ps).leaves = ps.flatMap leaves := by
  cases o with
  | and => exact leaves_and ps
  | or => exact leaves_or ps

/-- The parts that an operand gives have its leaves, from left to right. -/
lemma leaves_parts (o : Connective) (p : Formula) : (o.parts p).flatMap leaves = p.leaves := by
  have own (ps : List Formula) : ps.flatMap leaves = (o.form ps).leaves := (leaves_form o ps).symm
  have alone (q : Formula) : [q].flatMap leaves = q.leaves := List.flatMap_singleton leaves q
  cases o with
  | and =>
    rw [Connective.parts]
    cases p with
    | top => rfl
    | and ps => exact own ps
    | group p =>
      cases p with
      | and ps => exact own ps
      | _ => exact (alone _).trans (leaves_grouped _)
    | _ => exact (alone _).trans (leaves_grouped _)
  | or =>
    rw [Connective.parts, disjuncts, ← leaves_ungrouped]
    cases p.ungrouped with
    | bot => rfl
    | or ps => exact own ps
    | _ => exact alone _

/-- What an operand gives has its atoms from the operand. -/
lemma mem_leaves_of_parts (hq : q ∈ o.parts p) (ha : a ∈ q.leaves) : a ∈ p.leaves := by
  rw [← leaves_parts o p]
  exact List.mem_flatMap.2 ⟨q, hq, ha⟩

/-! ## Operations -/

/-- All atoms of a formula have a property. -/
def Over (P : Atom → Prop) (p : Formula) : Prop := ∀ a ∈ p.leaves, P a

/-- What holds of all atoms of a formula holds of those of its operands. -/
lemma Over.children (h : Over P p) (hq : q ∈ p.children) : Over P q :=
  fun a ha => h a (mem_leaves_of_children hq ha)

/-- A negation brings in no atoms. -/
lemma Over.negate (h : Over P p) : Over P p.negate := by
  cases hc : p.canNegate with
  | false =>
    rw [negate_of_not_canNegate hc]
    exact List.forall_mem_nil _
  | true =>
    induction p with
    | top | bot | undef => exact h
    | atom a =>
      rw [negate_atom hc]
      exact h
    | not p _ =>
      rw [negate_not hc]
      intro a ha
      exact h a (leaves_ungrouped p ▸ ha)
    | and ps _ =>
      rw [negate_and hc]
      exact h
    | or ps _ =>
      rw [negate_or hc]
      exact h
    | group p ih =>
      rw [negate_group hc]
      intro a ha
      exact ih h hc a (leaves_grouped _ ▸ ha)

/-- Sorting operands changes the order of the leaves only. -/
lemma leaves_assemble (o : Connective) (ps : List Formula) :
    (assemble o.form o.neutral ps).leaves.Perm (ps.flatMap leaves) := by
  match ps with
  | [] => cases o <;> exact .refl []
  | [p] => exact .of_eq (List.flatMap_singleton leaves p).symm
  | p :: q :: ps =>
    rw [assemble_eq (Nat.le_add_left 2 _), leaves_form]
    exact (sortOperands_perm _).flatMap_right leaves

/-- Where no part is absorbing, the leaves of what operands combine to are those of the operands. -/
lemma leaves_node_perm (hu : undef ∉ ps) (ha : o.absorbing ∉ ps.flatMap o.parts) :
    (o.node ps).leaves.Perm (ps.flatMap leaves) := by
  have parts : (ps.flatMap o.parts).flatMap leaves = ps.flatMap leaves := by
    rw [List.flatMap_assoc]
    exact List.flatMap_congr fun p _ => leaves_parts o p
  rw [Connective.node_eq_assemble hu ha, ← parts]
  exact leaves_assemble o _

/-- A connective brings in no atoms. -/
lemma over_node (h : ∀ p ∈ ps, Over P p) : Over P (o.node ps) := by
  have constant {p : Formula} (hp : IsConstant p) : Over P p := by
    obtain rfl | rfl | rfl := hp.eq <;> exact List.forall_mem_nil _
  obtain ⟨_, e⟩ | ⟨_, _, e⟩ | ⟨hu, ha, _⟩ := o.node_cases ps
  · exact e ▸ constant trivial
  · exact e ▸ constant o.isConstant_absorbing
  · intro a hl
    obtain ⟨p, hp, hl⟩ := List.mem_flatMap.1 ((leaves_node_perm hu ha).mem_iff.1 hl)
    exact h p hp a hl

/-- The operations bring in no atoms. -/
lemma over_kept : Kept (Over P) where
  top := List.forall_mem_nil _
  bot := List.forall_mem_nil _
  grouped h := fun a ha => h a (leaves_grouped _ ▸ ha)
  negate := Over.negate
  conj := over_node (o := .and)
  disj := over_node (o := .or)

/-- Removing an operand brings in no atoms. -/
lemma Over.remove? (h : Over P p) {index : Nat} (hq : p.remove? index = some q) : Over P q := by
  obtain ⟨o, ps, sub, rfl⟩ := remove?_eq_some hq
  exact over_node fun r hr => h.children (sub hr)

end Formula

end RuleFormula
