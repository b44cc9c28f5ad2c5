import RuleFormula.Proofs.Formula.Normal
import RuleFormula.Reading.Expression

/-!
# Conjunction and disjunction as one operation

Both connectives combine operands in the same way: each operand gives its parts, an undefined
operand makes the result undefined, an absorbing part takes over, and otherwise the result is
assembled of the parts (`node_cases`). The connectives differ in what the parts of an operand are,
and in which constants are neutral and absorbing. What follows from the common way is said here for
any connective: the result is normal where the operands are (`isNormal_node`), and so is what is
left when an operand is removed.
-/

namespace RuleFormula

open Formula

/-- A formula other than the undefined one is defined. -/
lemma Formula.isDefined_of_ne_undef {p : Formula} (h : p ≠ undef) : p.isDefined = true := by
  cases p with
  | undef => exact absurd rfl h
  | _ => rfl

/-- Where every result is there, so is the list of results. -/
lemma mapM_eq_pure {α β : Type} {m : Type → Type} [Monad m] [LawfulMonad m] {f : α → m β}
    {g : α → β} {xs : List α} (h : ∀ x ∈ xs, f x = pure (g x)) : xs.mapM f = pure (xs.map g) := by
  induction xs with
  | nil => exact List.mapM_nil
  | cons x xs ih =>
    obtain ⟨first, later⟩ := List.forall_mem_cons.1 h
    rw [List.mapM_cons, first, ih later, pure_bind, pure_bind, List.map_cons]

/-- Calls that all return give the list of what they return. -/
lemma mapM_eq_ok {α β ε : Type} {f : α → Except ε β} {g : α → β} {xs : List α}
    (h : ∀ x ∈ xs, f x = .ok (g x)) : xs.mapM f = .ok (xs.map g) := mapM_eq_pure h

namespace Reading.Connective

/-- The formula that has the connective at its root. -/
def form : Connective → List Formula → Formula
  | and => .and
  | or => .or

/-- What an operand gives to the connective. -/
def parts : Connective → Formula → List Formula
  | and => conjuncts
  | or => disjuncts

/-- The constant that may be left out among operands. -/
def neutral : Connective → Formula
  | and => .top
  | or => .bot

/-- The constant that makes other operands irrelevant. -/
def absorbing : Connective → Formula
  | and => .bot
  | or => .top

/-- The shapes that an operand may have in a formula in canonical shape. -/
def IsOperand : Connective → Formula → Prop
  | and => IsConjunct
  | or => IsDisjunct

/-- The connective over one formula or more. -/
def all : Connective → List Formula → Except Fault Formula
  | and => conjAll
  | or => disjAll

variable {o : Connective} {p q : Formula} {ps qs : List Formula}

/-- Over one operand or more a connective does not fault. -/
lemma all_eq (o : Connective) (hn : ps ≠ []) : o.all ps = .ok (o.node ps) := by
  obtain ⟨p, ps, rfl⟩ := List.exists_cons_of_ne_nil hn
  cases o <;> rfl

/-- The neutral formula of a connective is a constant. -/
lemma isConstant_neutral (o : Connective) : IsConstant o.neutral := by
  cases o <;> trivial

/-- The absorbing formula of a connective is a constant. -/
lemma isConstant_absorbing (o : Connective) : IsConstant o.absorbing := by
  cases o <;> trivial

/-- A neutral operand gives nothing. -/
@[simp] lemma parts_neutral (o : Connective) : o.parts o.neutral = [] := by
  cases o <;> rfl

/-- An absorbing operand gives itself. -/
@[simp] lemma parts_absorbing (o : Connective) : o.parts o.absorbing = [o.absorbing] := by
  cases o <;> rfl

/-- An operand with the connective at its root gives its own operands. -/
@[simp] lemma parts_form (o : Connective) (ps : List Formula) : o.parts (o.form ps) = ps := by
  cases o <;> rfl

/-- A formula of the shape of an operand gives itself. -/
lemma IsOperand.parts_eq (h : o.IsOperand p) : o.parts p = [p] := by
  cases o with
  | and => exact IsConjunct.conjuncts_eq h
  | or => exact IsDisjunct.disjuncts_eq h

/-- What a formula in canonical shape gives is in canonical shape and has the shape of an operand.
-/
lemma of_mem_parts (h : Proper p) (hq : q ∈ o.parts p) : Proper q ∧ o.IsOperand q := by
  cases o with
  | and => exact h.of_mem_conjuncts hq
  | or => exact h.of_mem_disjuncts hq

/-- A defined formula in canonical shape is one of the two constants or proper. -/
lemma cases_of_isNormal (o : Connective) (h : IsNormal p) (hd : p ≠ undef) :
    p = o.neutral ∨ p = o.absorbing ∨ Proper p := by
  obtain rfl | rfl | proper := h.of_defined (isDefined_of_ne_undef hd)
  · cases o with
    | and => exact .inl rfl
    | or => exact .inr (.inl rfl)
  · cases o with
    | and => exact .inr (.inl rfl)
    | or => exact .inl rfl
  · exact .inr (.inr proper)

/-- The check for operands without a truth value finds the undefined formula. -/
lemma any_not_isDefined (ps : List Formula) :
    ps.any (!·.isDefined) = true ↔ undef ∈ ps := by
  rw [List.any_eq_true]
  constructor
  · rintro ⟨p, hp, hd⟩
    cases p with
    | undef => exact hp
    | _ => cases hd
  · intro h
    exact ⟨undef, h, rfl⟩

/-- What operands combine to. -/
lemma node_cases (o : Connective) (ps : List Formula) :
    (undef ∈ ps ∧ o.node ps = undef) ∨
    (undef ∉ ps ∧ o.absorbing ∈ ps.flatMap o.parts ∧ o.node ps = o.absorbing) ∨
    (undef ∉ ps ∧ o.absorbing ∉ ps.flatMap o.parts ∧
      o.node ps = assemble o.form o.neutral (ps.flatMap o.parts)) := by
  have node : o.node ps = if ps.any (!·.isDefined) then undef else
      if o.absorbing ∈ ps.flatMap o.parts then o.absorbing
      else assemble o.form o.neutral (ps.flatMap o.parts) := by
    cases o <;> rfl
  rw [node]
  split
  · next hu => exact .inl ⟨(any_not_isDefined ps).1 hu, rfl⟩
  · next hu =>
    have defined := mt (any_not_isDefined ps).2 hu
    split
    · next ha => exact .inr (.inl ⟨defined, ha, rfl⟩)
    · next ha => exact .inr (.inr ⟨defined, ha, rfl⟩)

/-- An undefined operand makes the result undefined. -/
lemma node_eq_undef (hu : undef ∈ ps) : o.node ps = undef := by
  obtain ⟨_, e⟩ | ⟨hu', _⟩ | ⟨hu', _⟩ := o.node_cases ps
  · exact e
  · exact absurd hu hu'
  · exact absurd hu hu'

/-- An absorbing part takes over, if no operand is undefined. -/
lemma node_eq_absorbing (hu : undef ∉ ps) (ha : o.absorbing ∈ ps.flatMap o.parts) :
    o.node ps = o.absorbing := by
  obtain ⟨hu', _⟩ | ⟨_, _, e⟩ | ⟨_, ha', _⟩ := o.node_cases ps
  · exact absurd hu' hu
  · exact e
  · exact absurd ha ha'

/-- Without undefined operands and absorbing parts the result is assembled of the parts. -/
lemma node_eq_assemble (hu : undef ∉ ps) (ha : o.absorbing ∉ ps.flatMap o.parts) :
    o.node ps = assemble o.form o.neutral (ps.flatMap o.parts) := by
  obtain ⟨hu', _⟩ | ⟨_, ha', _⟩ | ⟨_, _, e⟩ := o.node_cases ps
  · exact absurd hu' hu
  · exact absurd ha' ha
  · exact e

/-- Operands combine to one formula where the same is undefined or absorbing in them, and their
parts have one canonical order. -/
lemma node_congr (hu : undef ∈ ps ↔ undef ∈ qs)
    (ha : undef ∉ ps → (o.absorbing ∈ ps.flatMap o.parts ↔ o.absorbing ∈ qs.flatMap o.parts))
    (hs : undef ∉ ps → o.absorbing ∉ ps.flatMap o.parts →
      sortOperands (ps.flatMap o.parts) = sortOperands (qs.flatMap o.parts)) :
    o.node ps = o.node qs := by
  obtain ⟨hu', e⟩ | ⟨hu', ha', e⟩ | ⟨hu', ha', e⟩ := o.node_cases ps
  · rw [e, node_eq_undef (hu.1 hu')]
  · rw [e, node_eq_absorbing (mt hu.2 hu') ((ha hu').1 ha')]
  · rw [e, node_eq_assemble (mt hu.2 hu') (mt (ha hu').2 ha')]
    exact assemble_congr (hs hu' ha')

/-- Where no part is absorbing, the parts are proper and may stand in a formula as they are. -/
lemma of_mem_flatMap_parts (h : ∀ p ∈ ps, IsNormal p) (hu : undef ∉ ps)
    (ha : o.absorbing ∉ ps.flatMap o.parts) (hq : q ∈ ps.flatMap o.parts) :
    Proper q ∧ o.IsOperand q := by
  obtain ⟨p, hp, hqp⟩ := List.mem_flatMap.1 hq
  obtain rfl | rfl | proper := o.cases_of_isNormal (h p hp) (fun e => hu (e ▸ hp))
  · rw [parts_neutral] at hqp
    cases hqp
  · exact absurd (List.mem_flatMap.2 ⟨_, hp, o.parts_absorbing ▸ List.mem_singleton_self _⟩) ha
  · exact of_mem_parts proper hqp

/-- Two sorted operands or more, of the right shapes, are in canonical shape under a connective. -/
lemma proper_form (hl : 2 ≤ ps.length) (hs : ∀ p ∈ ps, o.IsOperand p) (ho : Sorted ps)
    (hp : ∀ p ∈ ps, Proper p) : Proper (o.form ps) := by
  cases o with
  | and => exact .and hl hs ho hp
  | or => exact .or hl hs ho hp

/-- Normal operands are combined to a normal formula. -/
lemma isNormal_node (h : ∀ p ∈ ps, IsNormal p) : IsNormal (o.node ps) := by
  obtain ⟨_, e⟩ | ⟨_, _, e⟩ | ⟨hu, ha, e⟩ := o.node_cases ps
  · exact e ▸ .inl trivial
  · exact e ▸ .inl o.isConstant_absorbing
  · rw [e]
    have flat {q : Formula} (hq : q ∈ ps.flatMap o.parts) : Proper q ∧ o.IsOperand q :=
      of_mem_flatMap_parts h hu ha hq
    refine assemble_cases (.inl o.isConstant_neutral) (fun q hq => .inr (flat hq).1)
      (fun hl => .inr ?_)
    refine proper_form ?_ (fun q hq => ?_) (sorted_sortOperands _) (fun q hq => ?_)
    · exact hl.trans_eq (length_sortOperands _).symm
    · exact (flat (mem_sortOperands.1 hq)).2
    · exact (flat (mem_sortOperands.1 hq)).1

/-- The operands of a formula in canonical shape make this formula. -/
lemma node_eq_form (hl : 2 ≤ ps.length) (hc : ∀ p ∈ ps, o.IsOperand p) (hs : Sorted ps) :
    o.node ps = o.form ps := by
  have flat : ps.flatMap o.parts = ps :=
    (List.flatMap_congr fun p hp => (hc p hp).parts_eq).trans ps.flatMap_singleton'
  have no_constant {p : Formula} (hp : IsConstant p) : p ∉ ps := by
    intro hm
    have operand := hc p hm
    obtain rfl | rfl | rfl := hp.eq <;> cases o <;> exact operand.elim
  rw [node_eq_assemble (no_constant trivial) (flat.symm ▸ no_constant o.isConstant_absorbing), flat,
    assemble_eq hl, hs.sortOperands_eq]

/-- The parts of what operands combine to are the parts of the operands, in canonical order. -/
lemma parts_node (h : ∀ p ∈ ps, IsNormal p) (hu : undef ∉ ps)
    (ha : o.absorbing ∉ ps.flatMap o.parts) :
    o.parts (o.node ps) = sortOperands (ps.flatMap o.parts) := by
  have operand {q : Formula} (hq : q ∈ ps.flatMap o.parts) : o.IsOperand q :=
    (of_mem_flatMap_parts h hu ha hq).2
  obtain ⟨hu', _⟩ | ⟨_, ha', _⟩ | ⟨_, _, e⟩ := o.node_cases ps
  · exact absurd hu' hu
  · exact absurd ha' ha
  · rw [e]
    generalize ps.flatMap o.parts = flat at operand ⊢
    match flat with
    | [] => rw [assemble, parts_neutral, sortOperands_nil]
    | [q] =>
      rw [assemble, (operand (List.mem_singleton_self q)).parts_eq, sortOperands_singleton]
    | q :: q' :: flat => rw [assemble_eq (Nat.le_add_left 2 _), parts_form]

/-- Operands combine to the undefined formula only where one of them is undefined. -/
lemma node_eq_undef_iff (h : ∀ p ∈ ps, IsNormal p) : o.node ps = undef ↔ undef ∈ ps := by
  obtain ⟨hu, e⟩ | ⟨hu, _, e⟩ | ⟨hu, ha, e⟩ := o.node_cases ps
  · exact ⟨fun _ => hu, fun _ => e⟩
  · have ne : o.absorbing ≠ undef := by cases o <;> exact nofun
    exact ⟨fun e' => absurd (e.symm.trans e') ne, fun hu' => absurd hu' hu⟩
  · have ne : assemble o.form o.neutral (ps.flatMap o.parts) ≠ undef := by
      refine @assemble_cases _ (· ≠ undef) _ _ ?_ (fun q hq => ?_) (fun _ => ?_)
      · cases o <;> exact nofun
      · rintro rfl
        cases (of_mem_flatMap_parts h hu ha hq).1
      · cases o <;> exact nofun
    exact ⟨fun e' => absurd (e.symm.trans e') ne, fun hu' => absurd hu' hu⟩

end Reading.Connective

namespace Formula

open Reading (Connective)

variable {p q : Formula}

/-- What is left when an operand is removed is combined of the others. -/
lemma remove?_eq_some {index : Nat} (h : p.remove? index = some q) :
    ∃ (o : Connective) (ps : List Formula), ps ⊆ p.children ∧ q = o.node ps := by
  unfold Formula.remove? at h
  split at h
  · split at h
    · exact ⟨.and, _, List.eraseIdx_subset, (Option.some.inj h).symm⟩
    · cases h
  · split at h
    · exact ⟨.or, _, List.eraseIdx_subset, (Option.some.inj h).symm⟩
    · cases h
  · cases h

/-- Removing an operand keeps the canonical shape. -/
lemma IsNormal.remove? (h : IsNormal p) {index : Nat} (hq : p.remove? index = some q) :
    IsNormal q := by
  obtain ⟨o, ps, sub, rfl⟩ := remove?_eq_some hq
  exact Connective.isNormal_node fun r hr => .inr (h.children (sub hr))

end Formula

end RuleFormula
