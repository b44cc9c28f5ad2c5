import Mathlib.Algebra.BigOperators.Group.Multiset.Basic
import RuleFormula.Proofs.Formula.Identity
import RuleFormula.Proofs.Formula.Leaves
import RuleFormula.Proofs.Formula.Rebuilding

/-!
# No leaf is lost or doubled

A conjunction or disjunction has each atom at as many leaves as its operands have together, unless
an absorbing constant takes their place (`leaves_kept`). Which constants a connective gives follows
from this count: without an absorbing operand, a result that has no leaf is made of operands that
have none, and these are neutral.
-/

namespace RuleFormula

open Formula

namespace Reading.Connective

variable {o : Connective} {p : Formula} {ps : List Formula}

/-! ## Constants among operands -/

/-- The absorbing and the neutral constant of a connective are different. -/
lemma absorbing_ne_neutral (o : Connective) : o.absorbing ≠ o.neutral := by
  cases o <;> exact nofun

/-- Only the absorbing constant has an absorbing part. -/
lemma absorbing_mem_parts_iff (h : IsNormal p) (hd : p ≠ undef) :
    o.absorbing ∈ o.parts p ↔ o.absorbing = p := by
  obtain rfl | rfl | proper := o.cases_of_isNormal h hd
  · rw [parts_neutral]
    exact ⟨nofun, fun e => absurd e o.absorbing_ne_neutral⟩
  · rw [parts_absorbing, List.mem_singleton]
  · constructor
    · intro ha
      exact absurd o.isConstant_absorbing (of_mem_parts proper ha).1.not_isConstant
    · rintro rfl
      exact absurd o.isConstant_absorbing proper.not_isConstant

/-- An absorbing part comes from an absorbing operand, and from nowhere else. -/
lemma absorbing_mem_flatMap_parts_iff (h : ∀ p ∈ ps, IsNormal p) (hu : undef ∉ ps) :
    o.absorbing ∈ ps.flatMap o.parts ↔ o.absorbing ∈ ps := by
  have part {p : Formula} (hp : p ∈ ps) : o.absorbing ∈ o.parts p ↔ o.absorbing = p :=
    absorbing_mem_parts_iff (h p hp) fun e => hu (e ▸ hp)
  rw [List.mem_flatMap]
  constructor
  · rintro ⟨p, hp, ha⟩
    exact (part hp).1 ha ▸ hp
  · intro ha
    exact ⟨_, ha, (part ha).2 rfl⟩

/-- A formula without leaves that is neither undefined nor absorbing is neutral. -/
lemma eq_neutral_of_leaves_eq_nil (h : IsNormal p) (hd : p ≠ undef) (ha : o.absorbing ≠ p)
    (hl : p.leaves = []) : p = o.neutral := by
  obtain rfl | rfl | proper := o.cases_of_isNormal h hd
  · rfl
  · exact absurd rfl ha
  · exact absurd hl proper.leaves_ne_nil

/-! ## What operands combine to -/

/-- Without an absorbing operand, no leaf is lost and none is doubled. -/
lemma leaves_perm (h : ∀ p ∈ ps, IsNormal p) (hu : undef ∉ ps) (ha : o.absorbing ∉ ps) :
    (o.node ps).leaves.Perm (ps.flatMap leaves) :=
  leaves_node_perm hu (mt (absorbing_mem_flatMap_parts_iff h hu).1 ha)

/-- Without an absorbing operand, a result that has no leaf is made of neutral operands. -/
lemma forall_neutral_of_leaves_eq_nil (h : ∀ p ∈ ps, IsNormal p) (hu : undef ∉ ps)
    (ha : o.absorbing ∉ ps) (hl : (o.node ps).leaves = []) : ∀ p ∈ ps, p = o.neutral := by
  have none : ps.flatMap leaves = [] := List.nil_perm.1 (hl ▸ leaves_perm h hu ha)
  intro p hp
  have defined : p ≠ undef := fun e => hu (e ▸ hp)
  exact eq_neutral_of_leaves_eq_nil (h p hp) defined (fun e => ha (e ▸ hp))
    (List.flatMap_eq_nil_iff.1 none p hp)

/-- Neutral operands alone make the neutral constant. -/
lemma node_of_forall_neutral (h : ∀ p ∈ ps, p = o.neutral) : o.node ps = o.neutral := by
  have flat : ps.flatMap o.parts = [] :=
    List.flatMap_eq_nil_iff.2 fun p hp => h p hp ▸ o.parts_neutral
  have defined : undef ∉ ps := by
    intro hu
    have := h undef hu
    cases o <;> cases this
  rw [node_eq_assemble defined (flat ▸ List.not_mem_nil), flat, assemble]

/-- Operands combine to the absorbing constant only where it is one of them. -/
lemma node_eq_absorbing_iff (h : ∀ p ∈ ps, IsNormal p) (hu : undef ∉ ps) :
    o.node ps = o.absorbing ↔ o.absorbing ∈ ps := by
  constructor
  · intro e
    by_contra ha
    have neutral : ∀ p ∈ ps, p = o.neutral :=
      forall_neutral_of_leaves_eq_nil h hu ha (e ▸ o.isConstant_absorbing.leaves_eq)
    exact o.absorbing_ne_neutral (e ▸ node_of_forall_neutral neutral)
  · exact fun ha => node_eq_absorbing hu ((absorbing_mem_flatMap_parts_iff h hu).2 ha)

/-- Operands combine to the neutral constant only where all of them are neutral. -/
lemma node_eq_neutral_iff (h : ∀ p ∈ ps, IsNormal p) (hu : undef ∉ ps) :
    o.node ps = o.neutral ↔ ∀ p ∈ ps, p = o.neutral := by
  refine ⟨fun e => ?_, node_of_forall_neutral⟩
  have ha : o.absorbing ∉ ps := by
    intro ha
    exact o.absorbing_ne_neutral ((node_eq_absorbing_iff h hu).2 ha ▸ e)
  exact forall_neutral_of_leaves_eq_nil h hu ha (e ▸ o.isConstant_neutral.leaves_eq)

end Reading.Connective

namespace Formula

open Reading (Connective)

variable {p : Formula} {ps : List Formula}

/-! ## The leaves as a multiset and as a set -/

/-- The leaves of operands, counted together, are those of the operands one after the other. -/
lemma sum_coe_leaves (ps : List Formula) :
    (ps.map fun p => (p.leaves : Multiset Atom)).sum = ps.flatMap leaves := by
  induction ps with
  | nil => rfl
  | cons p ps ih => rw [List.map_cons, List.sum_cons, ih, List.flatMap_cons, Multiset.coe_add]

/-- The distinct atoms of a formula are those at its leaves. -/
lemma mem_atoms {a : Atom} : a ∈ p.atoms ↔ a ∈ p.leaves := List.mem_eraseDups

/-- Over one operand or more a connective keeps all leaves, and gives a constant when the operands
say so. -/
lemma all_keeps_leaves (o : Connective) (hn : ps ≠ []) (h : ∀ p ∈ ps, IsNormal p)
    (hu : undef ∉ ps) :
    ∃ c, o.all ps = .ok c ∧
      (o.absorbing ∉ ps → (c.leaves : Multiset Atom) = (ps.map fun p => ↑p.leaves).sum ∧
        ∀ a, a ∈ c.atoms ↔ ∃ p ∈ ps, a ∈ p.atoms) ∧
      (c = o.absorbing ↔ o.absorbing ∈ ps) ∧ (c = o.neutral ↔ ∀ p ∈ ps, p = o.neutral) := by
  refine ⟨o.node ps, o.all_eq hn, fun ha => ?_, Connective.node_eq_absorbing_iff h hu,
    Connective.node_eq_neutral_iff h hu⟩
  have kept := Connective.leaves_perm h hu ha
  refine ⟨?_, fun a => ?_⟩
  · rw [sum_coe_leaves, Multiset.coe_eq_coe]
    exact kept
  · simp only [mem_atoms, kept.mem_iff, List.mem_flatMap]

/-- Of defined formulas that can be made, a conjunction has the leaves of all of them, each as often
as it stands there, unless one of them is the constant `bot`; so it has the atoms of all of them. It
is a constant only where `bot` is one of them or all are `top`. The same holds of a disjunction,
with the constants exchanged. -/
theorem leaves_kept (hn : ps ≠ []) (h : ∀ p ∈ ps, Constructible p) (hu : undef ∉ ps) :
    (∃ c, conjAll ps = .ok c ∧
      (bot ∉ ps → (c.leaves : Multiset Atom) = (ps.map fun p => ↑p.leaves).sum ∧
        ∀ a, a ∈ c.atoms ↔ ∃ p ∈ ps, a ∈ p.atoms) ∧
      (c = bot ↔ bot ∈ ps) ∧ (c = top ↔ ∀ p ∈ ps, p = top)) ∧
    (∃ d, disjAll ps = .ok d ∧
      (top ∉ ps → (d.leaves : Multiset Atom) = (ps.map fun p => ↑p.leaves).sum ∧
        ∀ a, a ∈ d.atoms ↔ ∃ p ∈ ps, a ∈ p.atoms) ∧
      (d = top ↔ top ∈ ps) ∧ (d = bot ↔ ∀ p ∈ ps, p = bot)) := by
  have normal : ∀ p ∈ ps, IsNormal p := fun p hp => (h p hp).isNormal
  exact ⟨all_keeps_leaves .and hn normal hu, all_keeps_leaves .or hn normal hu⟩

/-- A disjunction in a conjunction with one of its own atoms, twice, and a constant. -/
theorem leaves_kept_of_repeated_atom :
    ∃ c, conjAll [disj [atom ⟨0, "x", true⟩, atom ⟨1, "y", true⟩], atom ⟨0, "x", true⟩,
        atom ⟨0, "x", true⟩, top] = .ok c ∧
      c.leaves.count ⟨0, "x", true⟩ = 3 ∧ c.leaves.count ⟨1, "y", true⟩ = 1 ∧ c ≠ bot ∧ c ≠ top := by
  have atoms : ∀ p ∈ [atom ⟨0, "x", true⟩, atom ⟨1, "y", true⟩], Constructible p :=
    List.forall_mem_cons.2 ⟨.atom _, List.forall_mem_singleton.2 (.atom _)⟩
  have made : ∀ p ∈ [disj [atom ⟨0, "x", true⟩, atom ⟨1, "y", true⟩], atom ⟨0, "x", true⟩,
      atom ⟨0, "x", true⟩, top], Constructible p := by
    simp only [List.forall_mem_cons]
    exact ⟨.disj atoms rfl, .atom _, .atom _, .top, nofun⟩
  rw [disj_atoms (by decide)] at made ⊢
  obtain ⟨⟨c, hc, kept, absorbed, neutral⟩, _⟩ :=
    leaves_kept (List.cons_ne_nil _ _) made (by decide)
  obtain ⟨leaves, _⟩ := kept (by decide)
  rw [sum_coe_leaves] at leaves
  have count (a : Atom) := congrArg (Multiset.count a) leaves
  simp only [Multiset.coe_count] at count
  exact ⟨c, hc, count _, count _, mt absorbed.1 (by decide), mt neutral.1 (by decide)⟩

end Formula

end RuleFormula
