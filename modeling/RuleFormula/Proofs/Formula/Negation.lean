import RuleFormula.Proofs.Formula.Rebuilding

/-!
# Negation

A formula in canonical shape can be negated unless it is the undefined one or has an atom that must
not stand under a negation (`IsNormal.canNegate_iff`). Negated twice it is the same formula again,
but for the parentheses around it (`IsNormal.negate_negate`): a negation puts parentheses where it
needs them, and takes them away with itself. `negated_twice_eq` says both of every formula that can
be made, and that no negation in it stands over an atom that does not allow it.
-/

namespace RuleFormula

namespace Formula

variable {p q : Formula} {ps : List Formula}

/-! ## What can be negated -/

/-- Operands can be negated when all their atoms allow it, if this is so for each operand. -/
lemma all_canNegate_eq (h : ∀ p ∈ ps, p.canNegate = p.leaves.all (·.negatable)) :
    ps.all canNegate = (ps.flatMap leaves).all (·.negatable) := by
  rw [List.all_flatMap]
  induction ps with
  | nil => rfl
  | cons p ps ih =>
    rw [List.all_cons, List.all_cons, h p List.mem_cons_self,
      ih fun q hq => h q (List.mem_cons_of_mem p hq)]

/-- A proper formula can be negated when all its atoms allow it. -/
lemma Proper.canNegate_eq (h : Proper p) : p.canNegate = p.leaves.all (·.negatable) := by
  induction h with
  | atom a => rw [canNegate_atom, leaves_atom, List.all_cons, List.all_nil, Bool.and_true]
  | not _ _ _ ih => exact ih
  | and _ _ _ _ ih => rw [canNegate_and, leaves_and, all_canNegate_eq ih]
  | or _ _ _ _ ih => rw [canNegate_or, leaves_or, all_canNegate_eq ih]
  | group _ _ ih => exact ih

/-- A formula in canonical shape can be negated when it is defined and its atoms allow it. -/
lemma IsNormal.canNegate_iff (h : IsNormal p) :
    p.canNegate = true ↔ p ≠ undef ∧ ∀ a ∈ p.leaves, a.negatable = true := by
  obtain constant | proper := h
  · obtain rfl | rfl | rfl := constant.eq
    · exact ⟨fun _ => ⟨nofun, List.forall_mem_nil _⟩, fun _ => rfl⟩
    · exact ⟨fun _ => ⟨nofun, List.forall_mem_nil _⟩, fun _ => rfl⟩
    · exact ⟨nofun, fun hn => absurd rfl hn.1⟩
  · rw [proper.canNegate_eq, List.all_eq_true]
    refine ⟨fun all => ⟨?_, all⟩, fun hn => hn.2⟩
    rintro rfl
    exact proper.not_isConstant trivial

/-- The negation of a formula in canonical shape is defined where the formula can be negated. -/
lemma IsNormal.negate_eq_undef_iff (h : IsNormal p) : p.negate = undef ↔ p.canNegate = false := by
  refine ⟨fun e => ?_, negate_of_not_canNegate⟩
  by_contra hc
  rw [Bool.not_eq_false] at hc
  obtain constant | proper := h
  · obtain rfl | rfl | rfl := constant.eq
    · cases e
    · cases e
    · cases hc
  · have defined := (proper.negate hc).not_isConstant
    rw [e] at defined
    exact defined trivial

/-- A negation is undefined because of the formula or because of an atom, and never else. -/
lemma IsNormal.negate_eq_undef_iff_leaves (h : IsNormal p) :
    p.negate = undef ↔ p = undef ∨ ∃ a ∈ p.leaves, a.negatable = false := by
  rw [h.negate_eq_undef_iff, ← Bool.not_eq_true, h.canNegate_iff, not_and_or, not_ne_iff]
  refine or_congr_right ?_
  push Not
  simp only [Bool.not_eq_true]

/-! ## Negating twice -/

/-- What stands under a negation, without its parentheses, is negated by that negation. -/
lemma Proper.negate_ungrouped (h : Proper p) (hn : IsNegand p) (hc : p.canNegate = true) :
    p.ungrouped.negate = .not p := by
  cases h with
  | atom a => exact negate_atom hc
  | group hg _ => exact hg.negate_eq hc
  | _ => exact hn.elim

/-- A second negation takes the first away, and the parentheses around the formula. -/
lemma Proper.negate_negate (h : Proper p) (hc : p.canNegate = true) :
    p.negate.negate = p.ungrouped := by
  cases h with
  | atom a =>
    rw [negate_atom hc]
    exact negate_not hc
  | not hn _ hp =>
    rw [negate_not hc]
    exact hp.negate_ungrouped hn hc
  | and _ _ _ _ =>
    rw [negate_and hc]
    exact negate_not hc
  | or _ _ _ _ =>
    rw [negate_or hc]
    exact negate_not hc
  | group hg hp =>
    rw [(Proper.group hg hp).negate_negand trivial hc]
    exact negate_not hc

/-- A formula that can be negated is the same again when it is negated twice, without the
parentheses around it. -/
lemma IsNormal.negate_negate (h : IsNormal p) (hc : p.canNegate = true) :
    p.negate.negate = p.ungrouped := by
  obtain constant | proper := h
  · obtain rfl | rfl | rfl := constant.eq
    · rfl
    · rfl
    · cases hc
  · exact proper.negate_negate hc

/-! ## Negations inside a formula -/

/-- A negation in a formula that can be made is in canonical shape. -/
lemma Constructible.proper_of_isNodeOf_not (h : Constructible p) (hq : IsNodeOf (.not q) p) :
    Proper (.not q) := by
  cases hq with
  | root => exact h.isNormal.resolve_left id
  | operand hq hc => exact (h.isNormal.children hc).of_isNodeOf hq

/-- No negation stands over an atom that does not allow it. -/
lemma Constructible.negatable_of_isNodeOf_not (h : Constructible p) (hq : IsNodeOf (.not q) p) :
    ∀ a ∈ q.leaves, a.negatable = true := by
  cases h.proper_of_isNodeOf_not hq with
  | not _ hc hp =>
    rw [hp.canNegate_eq] at hc
    exact List.all_eq_true.1 hc

/-- The negation of a formula that can be made is undefined exactly when the formula is, or has an
atom that does not allow it. Where it is defined, negating again gives the formula, and of a formula
in parentheses what stands in them. No negation in the formula stands over an atom that does not
allow it. -/
theorem negated_twice_eq (h : Constructible p) :
    (p.negate = undef ↔ p = undef ∨ ∃ a ∈ p.leaves, a.negatable = false) ∧
    (p.negate ≠ undef →
      ((∀ q, p ≠ group q) → p.negate.negate = p) ∧ ∀ q, p = group q → p.negate.negate = q) ∧
    ∀ q, IsNodeOf (.not q) p → ∀ a ∈ q.leaves, a.negatable = true := by
  refine ⟨h.isNormal.negate_eq_undef_iff_leaves, fun hu => ?_,
    fun q => h.negatable_of_isNodeOf_not⟩
  rw [Ne, h.isNormal.negate_eq_undef_iff, Bool.not_eq_false] at hu
  have twice := h.isNormal.negate_negate hu
  constructor
  · intro hg
    rw [twice, ungrouped_eq_self_iff.2 hg]
  · rintro q rfl
    exact twice

/-- A disjunction in parentheses loses them when it is negated twice. -/
theorem negated_twice_in_parentheses :
    Constructible (group (or [atom ⟨0, "x", true⟩, atom ⟨1, "y", true⟩])) ∧
    (group (or [atom ⟨0, "x", true⟩, atom ⟨1, "y", true⟩])).negate ≠ undef ∧
    (group (or [atom ⟨0, "x", true⟩, atom ⟨1, "y", true⟩])).negate.negate =
      or [atom ⟨0, "x", true⟩, atom ⟨1, "y", true⟩] := by
  have made := (constructible_atoms .or (a := ⟨0, "x", true⟩) (b := ⟨1, "y", true⟩)
    (by decide)).grouped
  have defined : (group (or [atom ⟨0, "x", true⟩, atom ⟨1, "y", true⟩])).negate ≠ undef := by
    decide
  exact ⟨made, defined, ((negated_twice_eq made).2.1 defined).2 _ rfl⟩

end Formula

end RuleFormula
