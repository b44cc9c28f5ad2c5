import Mathlib.Data.List.Perm.Basic
import RuleFormula.Proofs.Formula.Flattening
import RuleFormula.Proofs.Formula.Leaves
import RuleFormula.Proofs.Formula.Unambiguous

/-!
# Operands in any order and in any groups

A connective gives one formula for operands in any order (`Connective.node_eq_of_perm`), and so it
does whether they are combined at once or group by group. The undefined formula and absorbing
constants come through from every place, neutral ones vanish wherever they stand, and the parts that
are left are the same up to their order, which the canonical order of operands makes up for.
-/

namespace RuleFormula

open Formula

namespace Reading.Connective

variable {o : Connective} {ps qs : List Formula} {pss : List (List Formula)}

/-- Operands in any order are combined to one formula. -/
lemma node_eq_of_perm (h : ∀ p ∈ ps, IsNormal p) (hi : Identified (ps.flatMap leaves))
    (perm : ps.Perm qs) : o.node ps = o.node qs := by
  have parts := perm.flatMap_right o.parts
  refine node_congr perm.mem_iff (fun _ => parts.mem_iff) (fun hu ha => ?_)
  refine sortOperands_eq_of_perm hi (fun p hp => ?_) (fun p hp a hl => ?_) parts
  · exact (of_mem_flatMap_parts h hu ha hp).1
  · obtain ⟨q, hq, hpart⟩ := List.mem_flatMap.1 hp
    exact List.mem_flatMap.2 ⟨q, hq, mem_leaves_of_parts hpart hl⟩

/-- What operands of one group or more give, group by group and at once. -/
lemma all_map_all_eq (o : Connective) (hn : pss ≠ []) (hns : ∀ ps ∈ pss, ps ≠ [])
    (h : ∀ ps ∈ pss, ∀ p ∈ ps, IsNormal p) (hi : Identified (pss.flatten.flatMap leaves))
    (perm : qs.Perm pss.flatten) :
    ∃ rs r, pss.mapM o.all = .ok rs ∧ o.all rs = .ok r ∧ o.all qs = .ok r := by
  have some : qs ≠ [] := by
    rintro rfl
    obtain ⟨ps, pss, rfl⟩ := List.exists_cons_of_ne_nil hn
    have none := List.flatten_eq_nil_iff.1 (List.nil_perm.1 perm) ps List.mem_cons_self
    exact hns ps List.mem_cons_self none
  refine ⟨pss.map o.node, o.node qs, mapM_eq_ok fun ps hps => o.all_eq (hns ps hps), ?_,
    o.all_eq some⟩
  have normal : ∀ p ∈ pss.flatten, IsNormal p := by
    intro p hp
    obtain ⟨ps, hps, hp⟩ := List.mem_flatten.1 hp
    exact h ps hps p hp
  rw [o.all_eq (mt List.map_eq_nil_iff.1 hn), node_map_node h, node_eq_of_perm normal hi perm.symm]

end Reading.Connective

namespace Formula

open Reading (Connective)

variable {pss : List (List Formula)} {qs : List Formula}

/-- The conjunction of conjunctions is the conjunction of all their operands in any order, and the
same holds of disjunctions. The number of an atom tells it from the other ones; their names need
not. -/
theorem regrouped_eq (hn : pss ≠ []) (hns : ∀ ps ∈ pss, ps ≠ [])
    (h : ∀ ps ∈ pss, ∀ p ∈ ps, Constructible p) (hi : Identified (pss.flatten.flatMap leaves))
    (perm : qs.Perm pss.flatten) :
    (∃ rs r, pss.mapM conjAll = .ok rs ∧ conjAll rs = .ok r ∧ conjAll qs = .ok r) ∧
    (∃ rs r, pss.mapM disjAll = .ok rs ∧ disjAll rs = .ok r ∧ disjAll qs = .ok r) := by
  have normal : ∀ ps ∈ pss, ∀ p ∈ ps, IsNormal p := fun ps hps p hp => (h ps hps p hp).isNormal
  exact ⟨Connective.and.all_map_all_eq hn hns normal hi perm,
    Connective.or.all_map_all_eq hn hns normal hi perm⟩

/-- Two atoms with one name, in two groups and at once in the other order. -/
theorem regrouped_with_one_name :
    (∃ rs r, [[atom ⟨0, "x", true⟩], [atom ⟨1, "x", true⟩, top]].mapM conjAll = .ok rs ∧
      conjAll rs = .ok r ∧ conjAll [top, atom ⟨1, "x", true⟩, atom ⟨0, "x", true⟩] = .ok r) ∧
    (∃ rs r, [[atom ⟨0, "x", true⟩], [atom ⟨1, "x", true⟩, top]].mapM disjAll = .ok rs ∧
      disjAll rs = .ok r ∧ disjAll [top, atom ⟨1, "x", true⟩, atom ⟨0, "x", true⟩] = .ok r) := by
  have made : ∀ ps ∈ [[atom ⟨0, "x", true⟩], [atom ⟨1, "x", true⟩, top]], ∀ p ∈ ps,
      Constructible p := by
    simp only [List.forall_mem_cons]
    exact ⟨⟨.atom _, nofun⟩, ⟨.atom _, .top, nofun⟩, nofun⟩
  refine regrouped_eq (List.cons_ne_nil _ _) ?_ made ?_ ?_
  · simp only [List.forall_mem_cons]
    exact ⟨nofun, nofun, nofun⟩
  · intro a ha b hb
    revert a b
    decide
  · exact List.reverse_perm [atom ⟨0, "x", true⟩, atom ⟨1, "x", true⟩, top]

end Formula

end RuleFormula
