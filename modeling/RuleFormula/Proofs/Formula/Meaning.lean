import RuleFormula.Formula.Truth
import RuleFormula.Proofs.Formula.Connectives
import RuleFormula.Proofs.Formula.Constructible
import RuleFormula.Proofs.Formula.Leaves

/-!
# The operations keep the meaning

On an item on which the tests of its atoms come to an end, a formula without the undefined one in it
has a truth value (`test_eq_ok`), which `holds` gives by recursion on the formula. The canonical
operations rebuild formulas, but the truth value of the result is what the names of the operations
say (`operations_keep_meaning`).
-/

namespace RuleFormula

open Reading (Connective)

namespace Reading.Connective

/-- The truth value of a connective, given those of its operands. -/
def holdsOver : Connective → List Bool → Bool
  | and, bs => bs.all id
  | or, bs => bs.any id

variable {o : Connective}

/-- The order of operands does not matter to the truth value. -/
lemma holdsOver_perm {bs cs : List Bool} (h : bs.Perm cs) : o.holdsOver bs = o.holdsOver cs := by
  cases o with
  | and => exact h.all_eq
  | or => exact h.any_eq

/-- Operands may be combined group by group. -/
lemma holdsOver_flatten (bss : List (List Bool)) :
    o.holdsOver bss.flatten = o.holdsOver (bss.map o.holdsOver) := by
  cases o with
  | and =>
    rw [holdsOver, holdsOver, List.all_flatten, List.all_map]
    rfl
  | or =>
    rw [holdsOver, holdsOver, List.any_flatten, List.any_map]
    rfl

/-- A connective over one operand has its truth value. -/
lemma holdsOver_singleton (b : Bool) : o.holdsOver [b] = b := by
  cases o <;> cases b <;> rfl

end Reading.Connective

namespace Formula

/-! ## Truth values -/

/-- The truth value of a node made of those of its operands. -/
def truthLayer (v : Atom → Bool) : Layer Bool → Bool
  | .top => true
  | .bot => false
  | .undef => false
  | .atom a => v a
  | .not b => !b
  | .and bs => Connective.and.holdsOver bs
  | .or bs => Connective.or.holdsOver bs
  | .group b => b

/-- The truth value of a defined formula, given those of the atoms. -/
def holds (v : Atom → Bool) (p : Formula) : Bool := p.fold (truthLayer v)

variable {v : Atom → Bool} {p : Formula} {ps : List Formula} {o : Connective}

@[simp] lemma holds_not (v : Atom → Bool) (p : Formula) : holds v (not p) = !holds v p := rfl

/-- The truth value of a connective is made of those of its operands. -/
lemma holds_form (v : Atom → Bool) (o : Connective) (ps : List Formula) :
    holds v (o.form ps) = o.holdsOver (ps.map (holds v)) := by
  cases o with
  | and =>
    rw [Connective.form, holds, fold, foldAll_eq_map]
    rfl
  | or =>
    rw [Connective.form, holds, fold, foldAll_eq_map]
    rfl

/-- Parentheses that are put around a formula do not change its truth value. -/
@[simp] lemma holds_grouped (v : Atom → Bool) (p : Formula) : holds v p.grouped = holds v p := by
  cases p <;> rfl

/-- Parentheses that are taken away do not change the truth value. -/
@[simp] lemma holds_ungrouped (v : Atom → Bool) (p : Formula) :
    holds v p.ungrouped = holds v p := by
  cases p <;> rfl

/-! ## Conjunction and disjunction -/

/-- An absorbing operand decides. -/
lemma holds_absorbing (v : Atom → Bool) {bs : List Bool} (h : holds v o.absorbing ∈ bs) :
    o.holdsOver bs = holds v o.absorbing := by
  cases o with
  | and => exact List.all_eq_false.2 ⟨false, h, Bool.false_ne_true⟩
  | or => exact List.any_eq_true.2 ⟨true, h, rfl⟩

/-- The parts that an operand gives hold together as the operand does. -/
lemma holdsOver_parts (v : Atom → Bool) (o : Connective) (p : Formula) :
    o.holdsOver ((o.parts p).map (holds v)) = holds v p := by
  have own (ps : List Formula) : o.holdsOver (ps.map (holds v)) = holds v (o.form ps) :=
    (holds_form v o ps).symm
  have alone (q : Formula) : o.holdsOver ([q].map (holds v)) = holds v q :=
    Connective.holdsOver_singleton _
  cases o with
  | and =>
    rw [Connective.parts]
    cases p with
    | top => rfl
    | and ps => exact own ps
    | group p =>
      cases p with
      | and ps => exact own ps
      | _ => exact alone _
    | _ => exact alone _
  | or =>
    rw [Connective.parts, disjuncts, ← holds_ungrouped]
    cases p.ungrouped with
    | bot => rfl
    | or ps => exact own ps
    | _ => exact alone _

/-- Operands that are assembled have the truth value of the connective over them. -/
lemma holds_assemble (v : Atom → Bool) (o : Connective) (ps : List Formula) :
    holds v (assemble o.form o.neutral ps) = o.holdsOver (ps.map (holds v)) := by
  match ps with
  | [] => cases o <;> rfl
  | [p] => exact (Connective.holdsOver_singleton _).symm
  | p :: q :: ps =>
    rw [assemble_eq (Nat.le_add_left 2 _), holds_form]
    exact Connective.holdsOver_perm ((sortOperands_perm _).map _)

/-- Defined operands of a connective are combined to a formula that holds where the connective
does. -/
lemma holds_node (v : Atom → Bool) (hu : undef ∉ ps) :
    holds v (o.node ps) = o.holdsOver (ps.map (holds v)) := by
  have flat : o.holdsOver ((ps.flatMap o.parts).map (holds v)) =
      o.holdsOver (ps.map (holds v)) := by
    rw [List.map_flatMap, List.flatMap_def, Connective.holdsOver_flatten, List.map_map]
    exact congrArg _ (List.map_congr_left fun p _ => holdsOver_parts v o p)
  obtain ⟨hu', _⟩ | ⟨_, ha, e⟩ | ⟨_, _, e⟩ := o.node_cases ps
  · exact absurd hu' hu
  · rw [e, ← flat, holds_absorbing v (List.mem_map_of_mem ha)]
  · rw [e, ← flat, holds_assemble]

/-! ## Negation -/

/-- Where the negation is defined, the formula can be negated. -/
lemma canNegate_of_negate_isDefined (h : p.negate.isDefined = true) : p.canNegate = true := by
  cases hc : p.canNegate with
  | true => rfl
  | false =>
    rw [negate_of_not_canNegate hc] at h
    cases h

/-- A negation has the other truth value. -/
lemma holds_negate (v : Atom → Bool) (h : p.canNegate = true) :
    holds v p.negate = !holds v p := by
  induction p with
  | top | bot => rfl
  | undef => cases h
  | atom a =>
    rw [negate_atom h]
    rfl
  | not p _ => rw [negate_not h, holds_ungrouped, holds_not, Bool.not_not]
  | and ps _ =>
    rw [negate_and h]
    rfl
  | or ps _ =>
    rw [negate_or h]
    rfl
  | group p ih =>
    rw [negate_group h, holds_grouped]
    exact ih h

/-! ## Tests -/

variable {ask : Atom → Except Fault Bool}

/-- A conjunction of operands that all come to an end tells whether all hold. -/
lemma testAll_eq_ok (h : ∀ p ∈ ps, p.test ask = .ok (holds v p)) :
    testAll ask ps = .ok (Connective.and.holdsOver (ps.map (holds v))) := by
  induction ps with
  | nil => rfl
  | cons p ps ih =>
    obtain ⟨first, later⟩ := List.forall_mem_cons.1 h
    rw [testAll, first]
    show (if holds v p then testAll ask ps else pure false) = _
    rw [ih later, List.map_cons]
    cases holds v p <;> rfl

/-- A disjunction of operands that all come to an end tells whether one holds. -/
lemma testAny_eq_ok (h : ∀ p ∈ ps, p.test ask = .ok (holds v p)) :
    testAny ask ps = .ok (Connective.or.holdsOver (ps.map (holds v))) := by
  induction ps with
  | nil => rfl
  | cons p ps ih =>
    obtain ⟨first, later⟩ := List.forall_mem_cons.1 h
    rw [testAny, first]
    show (if holds v p then pure true else testAny ask ps) = _
    rw [ih later, List.map_cons]
    cases holds v p <;> rfl

/-- Where its atoms have truth values, the test of a formula comes to an end with its own. -/
theorem test_eq_ok (hu : ¬ IsNodeOf .undef p) (hv : ∀ a ∈ p.leaves, ask a = .ok (v a)) :
    p.test ask = .ok (holds v p) := by
  induction p with
  | top | bot => rfl
  | undef => exact absurd (.root _) hu
  | atom a => exact hv a (List.mem_singleton_self a)
  | not p ih =>
    rw [test, ih (not_isNodeOf_operand hu (List.mem_singleton_self p)) hv]
    rfl
  | and ps ih =>
    have all : ∀ p ∈ ps, p.test ask = .ok (holds v p) := fun p hp =>
      ih p hp (not_isNodeOf_operand hu hp) fun a ha =>
        hv a (mem_leaves_of_children (p := .and ps) hp ha)
    rw [test, testAll_eq_ok all]
    exact congrArg _ (holds_form v .and ps).symm
  | or ps ih =>
    have all : ∀ p ∈ ps, p.test ask = .ok (holds v p) := fun p hp =>
      ih p hp (not_isNodeOf_operand hu hp) fun a ha =>
        hv a (mem_leaves_of_children (p := .or ps) hp ha)
    rw [test, testAny_eq_ok all]
    exact congrArg _ (holds_form v .or ps).symm
  | group p ih =>
    rw [test, ih (not_isNodeOf_operand hu (List.mem_singleton_self p)) hv]
    rfl

/-! ## The operations -/

/-- The test of an atom comes to an end. -/
def Returns (ask : Atom → Except Fault Bool) (a : Atom) : Prop := ∃ b, ask a = .ok b

/-- What the test of an atom answers, if it comes to an end. -/
def answer (ask : Atom → Except Fault Bool) (a : Atom) : Bool := (ask a).toOption.getD false

/-- A test that comes to an end gives its answer. -/
lemma Returns.eq_answer {a : Atom} (h : Returns ask a) : ask a = .ok (answer ask a) := by
  obtain ⟨b, e⟩ := h
  rw [answer, e]
  rfl

/-- A defined formula that can be made has a truth value where its atoms have. -/
lemma Constructible.test_eq_ok (h : Constructible p) (hd : p.isDefined = true)
    (hr : Over (Returns ask) p) : p.test ask = .ok (holds (answer ask) p) :=
  Formula.test_eq_ok (h.not_isNodeOf_undef hd) fun a ha => (hr a ha).eq_answer

/-- A connective over one operand or more is undefined when an operand is, and otherwise means what
it says. -/
lemma all_keeps_meaning (o : Connective) (hn : ps ≠ []) (h : ∀ p ∈ ps, Constructible p)
    (ask : Atom → Except Fault Bool) :
    ∃ c, o.all ps = .ok c ∧ (c = undef ↔ undef ∈ ps) ∧
      (undef ∉ ps → (∀ p ∈ ps, Over (Returns ask) p) →
        ∃ bs, ps.mapM (test ask) = .ok bs ∧ c.test ask = .ok (o.holdsOver bs)) := by
  have undefined : o.node ps = undef ↔ undef ∈ ps :=
    Connective.node_eq_undef_iff fun p hp => (h p hp).isNormal
  refine ⟨o.node ps, o.all_eq hn, undefined, fun hu hr => ?_⟩
  have operand {p : Formula} (hp : p ∈ ps) : p.test ask = .ok (holds (answer ask) p) :=
    (h p hp).test_eq_ok (isDefined_of_ne_undef fun e => hu (e ▸ hp)) (hr p hp)
  have made : Constructible (o.node ps) := .node hn h
  have returns : Over (Returns ask) (o.node ps) := over_node hr
  refine ⟨ps.map (holds (answer ask)), mapM_eq_ok fun p hp => operand hp, ?_⟩
  rw [made.test_eq_ok (isDefined_of_ne_undef (mt undefined.1 hu)) returns, holds_node _ hu]

/-- A negation that is defined means what it says. -/
lemma negate_keeps_meaning (h : Constructible p) (hr : Over (Returns ask) p)
    (hd : p.negate.isDefined = true) :
    ∃ b, p.test ask = .ok b ∧ p.negate.test ask = .ok (!b) := by
  have hc := canNegate_of_negate_isDefined hd
  have defined : p ≠ undef := by
    rintro rfl
    cases hc
  refine ⟨holds (answer ask) p, h.test_eq_ok (isDefined_of_ne_undef defined) hr, ?_⟩
  rw [h.negate.test_eq_ok hd hr.negate, holds_negate _ hc]

/-- Parentheses keep the meaning. -/
lemma grouped_keeps_meaning (h : Constructible p) (hr : Over (Returns ask) p)
    (hd : p.isDefined = true) :
    ∃ b, p.test ask = .ok b ∧ p.grouped.test ask = .ok b := by
  have defined : p.grouped.isDefined = true := by
    cases p with
    | undef => cases hd
    | _ => rfl
  refine ⟨holds (answer ask) p, h.test_eq_ok hd hr, ?_⟩
  rw [h.grouped.test_eq_ok defined (over_kept.grouped hr), holds_grouped]

/-- The conjunction and the disjunction of formulas are undefined where one of them is, and hold of
an item where all of them or some of them do. Where the negation of a formula is defined, it holds
where the formula does not, and parentheses change nothing. -/
theorem operations_keep_meaning {α : Type} (tests : Interpretation α) (x : α) :
    (∀ ps : List Formula, ps ≠ [] → (∀ p ∈ ps, Constructible p) →
      ∃ c, conjAll ps = .ok c ∧ (c = undef ↔ undef ∈ ps) ∧
        (undef ∉ ps → (∀ p ∈ ps, Over (Returns (tests · x)) p) →
          ∃ bs, ps.mapM (test (tests · x)) = .ok bs ∧ c.test (tests · x) = .ok (bs.all id))) ∧
    (∀ ps : List Formula, ps ≠ [] → (∀ p ∈ ps, Constructible p) →
      ∃ d, disjAll ps = .ok d ∧ (d = undef ↔ undef ∈ ps) ∧
        (undef ∉ ps → (∀ p ∈ ps, Over (Returns (tests · x)) p) →
          ∃ bs, ps.mapM (test (tests · x)) = .ok bs ∧ d.test (tests · x) = .ok (bs.any id))) ∧
    (∀ p : Formula, Constructible p → Over (Returns (tests · x)) p →
      (p.negate.isDefined = true →
        ∃ b, p.test (tests · x) = .ok b ∧ p.negate.test (tests · x) = .ok (!b)) ∧
      (p.isDefined = true →
        ∃ b, p.test (tests · x) = .ok b ∧ p.grouped.test (tests · x) = .ok b)) := by
  refine ⟨fun ps hn h => ?_, fun ps hn h => ?_, fun p h hr => ⟨fun hd => ?_, fun hd => ?_⟩⟩
  · exact all_keeps_meaning .and hn h _
  · exact all_keeps_meaning .or hn h _
  · exact negate_keeps_meaning h hr hd
  · exact grouped_keeps_meaning h hr hd

/-- Of two atoms the second holds, and so the disjunction does with the negation of the first. -/
theorem meaning_of_grouped_disjunction :
    ∃ c, conjAll [disj [atom ⟨0, "x", true⟩, atom ⟨1, "y", true⟩], (atom ⟨0, "x", true⟩).negate] =
      .ok c ∧ c.test (m := Except Fault) (fun a => .ok (decide (a.id = 1))) = .ok true := by
  have made : ∀ p ∈ [disj [atom ⟨0, "x", true⟩, atom ⟨1, "y", true⟩],
      (atom ⟨0, "x", true⟩).negate], Constructible p := by
    have atoms : ∀ p ∈ [atom ⟨0, "x", true⟩, atom ⟨1, "y", true⟩], Constructible p :=
      List.forall_mem_cons.2 ⟨.atom _, List.forall_mem_singleton.2 (.atom _)⟩
    exact List.forall_mem_cons.2
      ⟨.disj atoms rfl, List.forall_mem_singleton.2 (Constructible.atom _).negate⟩
  obtain ⟨c, hc, _, meaning⟩ := (operations_keep_meaning (α := Unit)
    (fun a _ => .ok (decide (a.id = 1))) ()).1 _ (List.cons_ne_nil _ _) made
  rw [disj_atoms (by decide), negate_atom rfl] at hc meaning
  obtain ⟨bs, hbs, htest⟩ := meaning (by decide) fun p _ a _ => ⟨_, rfl⟩
  obtain rfl : [true, true] = bs := Except.ok.inj hbs
  rw [disj_atoms (by decide), negate_atom rfl]
  exact ⟨c, hc, htest⟩

end Formula

end RuleFormula
