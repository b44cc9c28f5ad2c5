import RuleFormula.Proofs.Formula.Connectives
import RuleFormula.Proofs.Reading.Closure

/-!
# Formulas that can be made

`Constructible` are the formulas that come out of the constants, the atoms, the operations, taking
an operand, and reading a text with a resolver that answers with such formulas. All of them are
normal (`Constructible.isNormal`), which `normal_at_every_node` spells out for each node: the
numbers and shapes of operands, their order, where constants may stand, and that the name of a node
is the rendering of its structure.
-/

namespace RuleFormula

open Reading (Connective)

namespace Formula

/-- A formula that can be made. The resolver of a text may have a state of any type. -/
inductive Constructible : Formula → Prop
  | top : Constructible .top
  | bot : Constructible .bot
  | undef : Constructible .undef
  | atom (a : Atom) : Constructible (.atom a)
  | conj {ps : List Formula} {p : Formula} : (∀ q ∈ ps, Constructible q) → conjAll ps = .ok p →
    Constructible p
  | disj {ps : List Formula} {p : Formula} : (∀ q ∈ ps, Constructible q) → disjAll ps = .ok p →
    Constructible p
  | negate {p : Formula} : Constructible p → Constructible p.negate
  | grouped {p : Formula} : Constructible p → Constructible p.grouped
  | remove {p q : Formula} {index : Nat} : Constructible p → p.remove? index = some q →
    Constructible q
  | operand {p q : Formula} : Constructible p → q ∈ p.children → Constructible q
  | read {σ : Type} {lookahead : Lookahead} {ask : String → StateM σ (Option Formula)}
    {text : String} {s s' : σ} {p : Formula} :
    (∀ name s q s', (ask name).run s = (some q, s') → Constructible q) →
    (readM lookahead ask text).run.run s = (.ok p, s') → Constructible p

/-- Both connectives make a formula of operands that can be made. -/
lemma Constructible.node {o : Connective} {ps : List Formula} (hn : ps ≠ [])
    (h : ∀ p ∈ ps, Constructible p) : Constructible (o.node ps) := by
  cases o with
  | and => exact .conj h (Connective.and.all_eq hn)
  | or => exact .disj h (Connective.or.all_eq hn)

/-! ## The rendering of a formula -/

mutual

/-- How a formula is written. -/
def rendering : Formula → String
  | top => "TRUE"
  | bot => "FALSE"
  | undef => "Undefined"
  | atom a => a.name
  | not p => "NOT " ++ rendering p
  | and ps => renderings " AND " ps
  | or ps => renderings " OR " ps
  | group p => "(" ++ rendering p ++ ")"

/-- How operands are written, with a separator between each and the next. -/
def renderings (separator : String) : List Formula → String
  | [] => ""
  | [p] => rendering p
  | p :: ps => rendering p ++ separator ++ renderings separator ps

end

/-- Names are put together as renderings are, where they agree operand by operand. -/
lemma intercalate_names (separator : String) {ps : List Formula}
    (h : ∀ p ∈ ps, p.name = p.rendering) :
    separator.intercalate (ps.map name) = renderings separator ps := by
  induction ps with
  | nil => rfl
  | cons p ps ih =>
    have hp := h p List.mem_cons_self
    have ih := ih fun q hq => h q (List.mem_cons_of_mem p hq)
    cases ps with
    | nil =>
      rw [renderings, ← hp]
      exact String.intercalate_singleton
    | cons q ps =>
      rw [renderings, ← hp, ← ih]
      · exact String.intercalate_cons_cons
      · exact nofun

/-- The name of a formula is its rendering. -/
lemma name_eq_rendering (p : Formula) : p.name = p.rendering := by
  induction p with
  | top | bot | undef | atom => rfl
  | not p ih => rw [name_not, ih, rendering]
  | and ps ih => rw [name_and, rendering, intercalate_names _ ih]
  | or ps ih => rw [name_or, rendering, intercalate_names _ ih]
  | group p ih => rw [name_group, ih, rendering]

/-! ## Normality -/

/-- Every way to make a formula keeps the canonical shape. -/
lemma isNormal_kept : Kept IsNormal where
  top := .inl trivial
  bot := .inl trivial
  grouped := IsNormal.grouped
  negate := IsNormal.negate
  conj := Connective.isNormal_node (o := .and)
  disj := Connective.isNormal_node (o := .or)

/-- Where the conjunction does not fault it is the conjunction. -/
lemma conjAll_eq_ok {ps : List Formula} {p : Formula} (h : conjAll ps = .ok p) : p = conj ps := by
  unfold conjAll at h
  split at h
  · cases h
  · exact (Except.ok.inj h).symm

/-- Where the disjunction does not fault it is the disjunction. -/
lemma disjAll_eq_ok {ps : List Formula} {p : Formula} (h : disjAll ps = .ok p) : p = disj ps := by
  unfold disjAll at h
  split at h
  · cases h
  · exact (Except.ok.inj h).symm

/-- Everything that can be made is normal. -/
theorem Constructible.isNormal {p : Formula} (h : Constructible p) : IsNormal p := by
  induction h with
  | top => exact .inl trivial
  | bot => exact .inl trivial
  | undef => exact .inl trivial
  | atom a => exact .inr (.atom a)
  | conj _ e ih => exact conjAll_eq_ok e ▸ isNormal_kept.conj ih
  | disj _ e ih => exact disjAll_eq_ok e ▸ isNormal_kept.disj ih
  | negate _ ih => exact ih.negate
  | grouped _ ih => exact ih.grouped
  | remove _ e ih => exact ih.remove? e
  | operand _ hq ih => exact .inr (ih.children hq)
  | @read _ _ _ text s s' p _ e ih =>
    refine Reading.gives_readM isNormal_kept ?_ text s _ s' e p rfl
    rintro name s found s' e q rfl
    exact ih name s q s' e

/-! ## Every node of a formula -/

/-- The formula is a node of another, at its root or further down. -/
inductive IsNodeOf : Formula → Formula → Prop
  | root (p : Formula) : IsNodeOf p p
  | operand {p q r : Formula} : IsNodeOf r q → q ∈ p.children → IsNodeOf r p

/-- What is no node of a formula is no node of its operands. -/
lemma not_isNodeOf_operand {p q r : Formula} (h : ¬ IsNodeOf r p) (hq : q ∈ p.children) :
    ¬ IsNodeOf r q := fun hr => h (.operand hr hq)

/-- What holds at each node of a normal formula. -/
structure NormalNode (q : Formula) : Prop where
  /-- A conjunction has two operands or more, of the right shapes and in order. -/
  and (ps : List Formula) : q = .and ps → 2 ≤ ps.length ∧ (∀ r ∈ ps, IsConjunct r) ∧ Sorted ps
  /-- A disjunction has two operands or more, of the right shapes and in order. -/
  or (ps : List Formula) : q = .or ps → 2 ≤ ps.length ∧ (∀ r ∈ ps, IsDisjunct r) ∧ Sorted ps
  /-- A negation stands over an atom or parentheses. -/
  not (r : Formula) : q = .not r → IsNegand r
  /-- Parentheses stand around a conjunction or disjunction. -/
  group (r : Formula) : q = .group r → IsGroupable r
  name_eq : q.name = q.rendering

/-- In canonical shape the root obeys all that is said of nodes. -/
lemma Proper.normalNode {q : Formula} (h : Proper q) : NormalNode q where
  and ps e := by
    subst e
    cases h with
    | and hl hs ho _ => exact ⟨hl, hs, ho⟩
  or ps e := by
    subst e
    cases h with
    | or hl hs ho _ => exact ⟨hl, hs, ho⟩
  not r e := by
    subst e
    cases h with
    | not hn _ _ => exact hn
  group r e := by
    subst e
    cases h with
    | group hg _ => exact hg
  name_eq := name_eq_rendering q

/-- Of a constant, nothing is asked that is said of nodes with operands. -/
lemma IsConstant.normalNode {q : Formula} (h : IsConstant q) : NormalNode q where
  and ps e := (e ▸ h : IsConstant (.and ps)).elim
  or ps e := (e ▸ h : IsConstant (.or ps)).elim
  not r e := (e ▸ h : IsConstant (.not r)).elim
  group r e := (e ▸ h : IsConstant (.group r)).elim
  name_eq := name_eq_rendering q

/-- The nodes of a formula in canonical shape are in canonical shape, and no constants. -/
lemma Proper.of_isNodeOf {p q : Formula} (h : Proper p) (hq : IsNodeOf q p) : Proper q := by
  induction hq with
  | root => exact h
  | operand _ hc ih => exact ih (h.children hc)

/-- A constant is not in the canonical shape that other formulas have. -/
lemma Proper.not_isConstant {p : Formula} (h : Proper p) : ¬ IsConstant p := by
  cases h <;> exact id

/-- A defined formula that can be made holds the undefined one nowhere. -/
lemma Constructible.not_isNodeOf_undef {p : Formula} (h : Constructible p)
    (hd : p.isDefined = true) : ¬ IsNodeOf .undef p := by
  intro hu
  cases hu with
  | root => cases hd
  | operand hu hq => cases (h.isNormal.children hq).of_isNodeOf hu

/-- At every node of a formula that can be made, the operands are as `NormalNode` says, and a
constant is the whole formula. -/
theorem normal_at_every_node {p q : Formula} (h : Constructible p) (hq : IsNodeOf q p) :
    NormalNode q ∧ (IsConstant q → q = p) := by
  cases hq with
  | root =>
    refine ⟨?_, fun _ => rfl⟩
    obtain c | c := h.isNormal
    · exact c.normalNode
    · exact c.normalNode
  | operand hq hc =>
    have proper := (h.isNormal.children hc).of_isNodeOf hq
    exact ⟨proper.normalNode, fun c => absurd c proper.not_isConstant⟩

/-- Two atoms in the order of their names make a disjunction as they stand. -/
lemma disj_atoms {a b : Atom} (h : a.name < b.name) :
    disj [atom a, atom b] = or [atom a, atom b] := by
  have sorted : Sorted [atom a, atom b] := List.pairwise_pair.2 (notAfter_iff.2 (.inl h))
  refine Connective.node_eq_form (o := .or) (le_refl 2) (fun p hp => ?_) sorted
  obtain rfl | rfl := List.mem_pair.1 hp
  · trivial
  · trivial

/-- A disjunction that is a node inside its own negation, in parentheses. -/
theorem normal_under_negation :
    Constructible (disj [atom ⟨0, "x", true⟩, atom ⟨1, "y", true⟩]).negate ∧
    IsNodeOf (disj [atom ⟨0, "x", true⟩, atom ⟨1, "y", true⟩])
      (disj [atom ⟨0, "x", true⟩, atom ⟨1, "y", true⟩]).negate ∧
    NormalNode (disj [atom ⟨0, "x", true⟩, atom ⟨1, "y", true⟩]) := by
  have made : Constructible (disj [atom ⟨0, "x", true⟩, atom ⟨1, "y", true⟩]) := by
    refine @Constructible.disj [atom ⟨0, "x", true⟩, atom ⟨1, "y", true⟩] _ (fun q hq => ?_) rfl
    obtain rfl | rfl := List.mem_pair.1 hq
    · exact .atom _
    · exact .atom _
  have node : IsNodeOf (disj [atom ⟨0, "x", true⟩, atom ⟨1, "y", true⟩])
      (disj [atom ⟨0, "x", true⟩, atom ⟨1, "y", true⟩]).negate := by
    rw [disj_atoms (by decide), negate_or (by decide)]
    exact .operand (.operand (.root _) (List.mem_singleton_self _)) (List.mem_singleton_self _)
  exact ⟨made.negate, node, (normal_at_every_node made.negate node).1⟩

end Formula

end RuleFormula
