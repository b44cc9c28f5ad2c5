import RuleFormula.Proofs.Formula.Constructible
import RuleFormula.Proofs.Formula.Unambiguous

/-!
# What tells formulas apart

Formulas that can be made are the same when they have one name and the same numbers of atoms from
left to right, whatever the names of the atoms look like (`same_iff_name_and_leafIds`). The order of
operands compares just these two, so that operands which tie in it are the same formula.
-/

namespace RuleFormula

namespace Formula

variable {p q : Formula}

/-- A formula in canonical shape that is no constant has an atom. -/
lemma Proper.leaves_ne_nil (h : Proper p) : p.leaves ≠ [] := by
  have operand {ps : List Formula} (hl : 2 ≤ ps.length) (h : ∀ p ∈ ps, p.leaves ≠ []) :
      ps.flatMap leaves ≠ [] := by
    have some : ps ≠ [] := List.length_pos_iff.1 (Nat.lt_of_succ_lt hl)
    obtain ⟨p, ps, rfl⟩ := List.exists_cons_of_ne_nil some
    intro none
    exact h p List.mem_cons_self (List.flatMap_eq_nil_iff.1 none p List.mem_cons_self)
  induction h with
  | atom a => exact List.cons_ne_nil a []
  | not _ _ _ ih => exact ih
  | and hl _ _ _ ih => exact leaves_and _ ▸ operand hl ih
  | or hl _ _ _ ih => exact leaves_or _ ▸ operand hl ih
  | group _ _ ih => exact ih

/-- Constants have no atoms. -/
lemma IsConstant.leaves_eq (h : IsConstant p) : p.leaves = [] := by
  obtain rfl | rfl | rfl := h.eq <;> rfl

/-- The constants have different names. -/
lemma IsConstant.eq_of_name_eq (hp : IsConstant p) (hq : IsConstant q) (hn : p.name = q.name) :
    p = q := by
  obtain rfl | rfl | rfl := hp.eq <;> obtain rfl | rfl | rfl := hq.eq <;>
    first | rfl | exact absurd hn (by decide)

/-- Formulas in canonical shape, constants among them, are told by their names and leaves. -/
lemma IsNormal.eq_of_name_eq (hp : IsNormal p) (hq : IsNormal q) (hn : p.name = q.name)
    (hl : p.leaves = q.leaves) : p = q := by
  obtain hp | hp := hp
  · obtain hq | hq := hq
    · exact hp.eq_of_name_eq hq hn
    · exact absurd (hl.symm.trans hp.leaves_eq) hq.leaves_ne_nil
  · obtain hq | hq := hq
    · exact absurd (hl.trans hq.leaves_eq) hp.leaves_ne_nil
    · exact Formula.eq_of_name_eq hp hq hn hl

/-- Two formulas that can be made are the same exactly when they have one name and the same numbers
of atoms, where the number of an atom tells it from the other ones; and they tie in the order of
operands exactly when they are the same. -/
theorem same_iff_name_and_leafIds (hp : Constructible p) (hq : Constructible q)
    (hi : Identified (p.leaves ++ q.leaves)) :
    (same p q = true ↔ p.name = q.name ∧ p.leafIds = q.leafIds) ∧
    (precedes p q = true ∧ precedes q p = true ↔ same p q = true) := by
  have told : same p q = true ↔ p.name = q.name ∧ p.leafIds = q.leafIds := by
    rw [same_iff]
    constructor
    · rintro rfl
      exact ⟨rfl, rfl⟩
    · rintro ⟨name, ids⟩
      refine hp.isNormal.eq_of_name_eq hq.isNormal name ?_
      exact hi.eq_of_map_id_eq (fun a => List.mem_append_left _) (fun a => List.mem_append_right _)
        ids
  refine ⟨told, ?_⟩
  rw [told, precedes_iff, precedes_iff]
  exact NotAfter.tie_iff

/-- The negation of an atom and an atom with its name. -/
theorem same_name_of_different_atoms :
    Constructible (not (atom ⟨0, "x", true⟩)) ∧ Constructible (atom ⟨1, "NOT x", true⟩) ∧
    Identified ((not (atom ⟨0, "x", true⟩)).leaves ++ (atom ⟨1, "NOT x", true⟩).leaves) ∧
    (not (atom ⟨0, "x", true⟩)).name = (atom ⟨1, "NOT x", true⟩).name ∧
    ¬ same (not (atom ⟨0, "x", true⟩)) (atom ⟨1, "NOT x", true⟩) = true := by
  have made := (Constructible.atom ⟨0, "x", true⟩).negate
  rw [negate_atom rfl] at made
  have apart : Identified ((not (atom ⟨0, "x", true⟩)).leaves ++
      (atom ⟨1, "NOT x", true⟩).leaves) := by
    unfold Identified
    decide
  refine ⟨made, .atom _, apart, rfl, fun h => ?_⟩
  have told := (same_iff_name_and_leafIds made (.atom _) apart).1.1 h
  exact absurd told.2 (by decide)

end Formula

end RuleFormula
