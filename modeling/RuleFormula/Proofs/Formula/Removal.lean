import Mathlib.Algebra.BigOperators.Group.List.Basic
import Mathlib.Algebra.GroupWithZero.Nat
import RuleFormula.Formula.Truth
import RuleFormula.Proofs.Formula.Rebuilding

/-!
# Removal of an operand

When an operand is removed from a conjunction or disjunction, the others are brought into canonical
shape again. In a formula that can be made they are in this shape already, so that they stay as they
are: three operands or more leave the same connective over the others, and two leave the other one
alone (`remove_one_operand`). The result is true of an item where the remaining operands say so,
asked in their order, and it is less complex.
-/

namespace RuleFormula

open Formula
open Reading (Connective)

namespace Reading.Connective

variable {m : Type → Type} [Monad m]

/-- The truth value of a connective over formulas that are tested one after the other, as far as it
takes. -/
def testOver : Connective → (Formula → m Bool) → List Formula → m Bool
  | and => List.allM
  | or => List.anyM

/-- A connective over one formula asks this formula and nothing more. -/
lemma testOver_singleton [LawfulMonad m] (o : Connective) (f : Formula → m Bool) (p : Formula) :
    o.testOver f [p] = f p := by
  have last : o.testOver f [p] = f p >>= pure := by
    cases o with
    | and =>
      refine bind_congr fun b => ?_
      cases b <;> rfl
    | or =>
      refine bind_congr fun b => ?_
      cases b <;> rfl
  rw [last, bind_pure]

variable {o : Connective} {p : Formula} {ps : List Formula}

/-- An operand of a connective is what the connective makes of it alone. -/
lemma IsOperand.alone_eq (h : o.IsOperand p) : o.alone p = p := by
  cases o with
  | and =>
    refine conjunctAlone_eq_self_iff.2 fun ps => ⟨?_, ?_⟩
    · rintro rfl
      exact h
    · rintro rfl
      exact h
  | or =>
    refine ungrouped_eq_self_iff.2 fun q => ?_
    rintro rfl
    exact h

end Reading.Connective

namespace Formula

variable {o : Connective} {p q : Formula} {ps : List Formula} {i : Nat}

/-! ## Observations of a connective -/

section

variable {m : Type → Type} [Monad m] [MonadExceptOf Fault m]

/-- A conjunction asks its operands until one does not hold. -/
lemma testAll_eq_allM (ask : Atom → m Bool) (ps : List Formula) :
    testAll ask ps = ps.allM (test ask) := by
  induction ps with
  | nil => rfl
  | cons p ps ih =>
    rw [testAll, List.allM]
    refine bind_congr fun b => ?_
    cases b with
    | false => rfl
    | true => exact ih

/-- A disjunction asks its operands until one holds. -/
lemma testAny_eq_anyM (ask : Atom → m Bool) (ps : List Formula) :
    testAny ask ps = ps.anyM (test ask) := by
  induction ps with
  | nil => rfl
  | cons p ps ih =>
    rw [testAny, List.anyM]
    refine bind_congr fun b => ?_
    cases b with
    | false => exact ih
    | true => rfl

/-- A connective is tested by asking its operands in their order. -/
lemma test_form (ask : Atom → m Bool) (o : Connective) (ps : List Formula) :
    (o.form ps).test ask = o.testOver (test ask) ps := by
  cases o with
  | and => rw [Connective.form, test, testAll_eq_allM, Connective.testOver]
  | or => rw [Connective.form, test, testAny_eq_anyM, Connective.testOver]

end

/-- The complexity of a connective is one more than those of its operands together. -/
lemma complexity_form (o : Connective) (ps : List Formula) :
    (o.form ps).complexity = 1 + (ps.map complexity).sum := by
  cases o with
  | and => exact complexity_and ps
  | or => exact complexity_or ps

/-- No formula has the complexity zero. -/
lemma complexity_pos (p : Formula) : 0 < p.complexity := by
  induction p with
  | top | bot | undef | atom => exact Nat.one_pos
  | not p _ =>
    rw [complexity_not]
    exact Nat.lt_add_right _ Nat.one_pos
  | and ps _ =>
    rw [complexity_and]
    exact Nat.lt_add_right _ Nat.one_pos
  | or ps _ =>
    rw [complexity_or]
    exact Nat.lt_add_right _ Nat.one_pos
  | group p ih => exact ih

/-- Operands of a connective in canonical shape. -/
lemma Proper.of_form (h : Proper (o.form ps)) :
    2 ≤ ps.length ∧ (∀ p ∈ ps, o.IsOperand p) ∧ Sorted ps ∧ ∀ p ∈ ps, Proper p := by
  cases o with
  | and =>
    cases h with
    | and hl hc hs hp => exact ⟨hl, hc, hs, hp⟩
  | or =>
    cases h with
    | or hl hc hs hp => exact ⟨hl, hc, hs, hp⟩

/-- A connective that can be made is in canonical shape. -/
lemma Constructible.proper_form (h : Constructible (o.form ps)) : Proper (o.form ps) := by
  refine h.isNormal.resolve_left fun constant => ?_
  cases o <;> exact constant

/-! ## What is left -/

/-- What is left after a removal is combined again. -/
lemma remove?_form (o : Connective) (hi : i < ps.length) :
    (o.form ps).remove? i = some (o.node (ps.eraseIdx i)) := by
  cases o with
  | and => exact if_pos hi
  | or => exact if_pos hi

/-- Of three operands or more, the others stay as they are. -/
lemma node_eraseIdx_of_le (h : Proper (o.form ps)) (hi : i < ps.length) (hl : 3 ≤ ps.length) :
    o.node (ps.eraseIdx i) = o.form (ps.eraseIdx i) := by
  obtain ⟨_, hc, hs, _⟩ := h.of_form
  apply Connective.node_eq_form
  · rw [List.length_eraseIdx_of_lt hi]
    exact Nat.le_sub_one_of_lt hl
  · exact fun p hp => hc p (List.mem_of_mem_eraseIdx hp)
  · exact hs.eraseIdx i

/-- Of two operands, the other one is left alone. -/
lemma node_eraseIdx_of_eq (h : Proper (o.form ps)) (he : ps.eraseIdx i = [q]) :
    o.node (ps.eraseIdx i) = q := by
  obtain ⟨_, hc, _, hp⟩ := h.of_form
  have mem : q ∈ ps := List.mem_of_mem_eraseIdx (he ▸ List.mem_singleton_self q)
  rw [he, o.node_singleton (.inr (hp q mem)), (hc q mem).alone_eq]

/-- The others are less complex together, by the operand that is removed. -/
lemma sum_complexity_eraseIdx_lt (hi : i < ps.length) :
    ((ps.eraseIdx i).map complexity).sum < (ps.map complexity).sum := by
  have split := ((List.getElem_cons_eraseIdx_perm hi).map complexity).sum_eq
  rw [List.map_cons, List.sum_cons] at split
  have := complexity_pos ps[i]
  omega

/-- Removing one operand of a conjunction or disjunction leaves the same connective over the others
in their order, or, where there is only one other, this operand. What is left is tested as the
connective over the remaining operands, and is less complex. -/
theorem remove_one_operand (h : Constructible (o.form ps)) (hi : i < ps.length) :
    ∃ q, (o.form ps).remove? i = some q ∧
      (3 ≤ ps.length → q = o.form (ps.eraseIdx i)) ∧
      (ps.length = 2 → ps.eraseIdx i = [q]) ∧
      (∀ {m : Type → Type} [Monad m] [LawfulMonad m] [MonadExceptOf Fault m] (ask : Atom → m Bool),
        q.test ask = o.testOver (test ask) (ps.eraseIdx i)) ∧
      q.complexity < (o.form ps).complexity := by
  have proper := h.proper_form
  have less := sum_complexity_eraseIdx_lt hi
  refine ⟨o.node (ps.eraseIdx i), remove?_form o hi, ?_⟩
  rw [complexity_form]
  obtain hl | hl := Nat.lt_or_ge ps.length 3
  · have two : ps.length = 2 := Nat.le_antisymm (Nat.le_of_lt_succ hl) proper.of_form.1
    obtain ⟨q, he⟩ : ∃ q, ps.eraseIdx i = [q] := by
      rw [← List.length_eq_one_iff, List.length_eraseIdx_of_lt hi, two]
    rw [node_eraseIdx_of_eq proper he, he]
    refine ⟨fun hl' => absurd hl' (Nat.not_le.2 hl), fun _ => rfl, fun ask => ?_, ?_⟩
    · exact (o.testOver_singleton (test ask) q).symm
    · rw [he, List.map_singleton, List.sum_singleton] at less
      exact Nat.lt_one_add_iff.2 (Nat.le_of_lt less)
  · rw [node_eraseIdx_of_le proper hi hl]
    refine ⟨fun _ => rfl, fun hl' => absurd hl (Nat.not_le.2 (hl' ▸ Nat.lt_succ_self 2)), ?_, ?_⟩
    · exact fun ask => test_form ask o _
    · rw [complexity_form]
      exact Nat.add_lt_add_left less 1

/-- A disjunction in parentheses that is left alone keeps them. -/
theorem remove_beside_disjunction :
    Constructible (and [group (or [atom ⟨0, "x", true⟩, atom ⟨1, "y", true⟩]),
      atom ⟨2, "b", true⟩]) ∧
    (and [group (or [atom ⟨0, "x", true⟩, atom ⟨1, "y", true⟩]), atom ⟨2, "b", true⟩]).remove? 1 =
      some (group (or [atom ⟨0, "x", true⟩, atom ⟨1, "y", true⟩])) := by
  have disjunction : Constructible (or [atom ⟨0, "x", true⟩, atom ⟨1, "y", true⟩]) :=
    constructible_atoms .or (by decide)
  have sorted : Sorted [group (or [atom ⟨0, "x", true⟩, atom ⟨1, "y", true⟩]),
      atom ⟨2, "b", true⟩] := List.pairwise_pair.2 (notAfter_iff.2 (.inl (by decide)))
  have made : Constructible (and [group (or [atom ⟨0, "x", true⟩, atom ⟨1, "y", true⟩]),
      atom ⟨2, "b", true⟩]) :=
    constructible_form (o := .and) (le_refl 2)
      (List.forall_mem_cons.2 ⟨trivial, List.forall_mem_singleton.2 trivial⟩) sorted
      (List.forall_mem_cons.2 ⟨disjunction.grouped, List.forall_mem_singleton.2 (.atom _)⟩)
  obtain ⟨q, removed, _, two, _⟩ := remove_one_operand (o := .and) (i := 1) made (by decide)
  obtain ⟨rfl, _⟩ := List.cons.inj (two rfl)
  exact ⟨made, removed⟩

end Formula

end RuleFormula
