import Mathlib.Tactic.Lemma
import RuleFormula.Formula.Basic

/-!
# Names that are stored

A node above other formulas need not put its name together each time it is asked for: it can store
the name when it is made, out of the names that its operands store. A `NamedFormula` is such a
tree, and `NamedFormula.build` makes its nodes. The name in a node could be any text; but it is
the name of the formula in each tree whose nodes were made by `build`, and these trees are the ones
that are `Exact` (`Exact.build`, `Exact.name_eq`). So `Formula` does without stored names: each
formula has one exact tree (`exact_fold`, `Exact.eq_of_formula_eq`), and the comparison that looks
at the stored names first, before it looks at the operands, is equality of formulas
(`Exact.same_iff`).
-/

namespace RuleFormula

/-- A formula in which each node above other ones stores its name. Leaves store none: the names of
the constants are fixed, and an atom brings its own. -/
inductive NamedFormula
  | top
  | bot
  | undef
  | atom (a : Atom)
  | not (t : NamedFormula) (name : String)
  | and (ts : List NamedFormula) (name : String)
  | or (ts : List NamedFormula) (name : String)
  | group (t : NamedFormula) (name : String)

namespace NamedFormula

/-- The name of a tree, as its root has it. -/
def name : NamedFormula → String
  | top => Keyword.true.text
  | bot => Keyword.false.text
  | undef => "Undefined"
  | atom a => a.name
  | not _ name => name
  | and _ name => name
  | or _ name => name
  | group _ name => name

/-- A node above trees, which stores the name made of the names that they store. -/
def build : Layer NamedFormula → NamedFormula
  | .top => top
  | .bot => bot
  | .undef => undef
  | .atom a => atom a
  | .not t => not t (Formula.nameLayer (.not t.name))
  | .and ts => and ts (Formula.nameLayer (.and (ts.map name)))
  | .or ts => or ts (Formula.nameLayer (.or (ts.map name)))
  | .group t => group t (Formula.nameLayer (.group t.name))

mutual

/-- The formula without the stored names. -/
def formula : NamedFormula → Formula
  | top => .top
  | bot => .bot
  | undef => .undef
  | atom a => .atom a
  | not t _ => .not (formula t)
  | and ts _ => .and (formulas ts)
  | or ts _ => .or (formulas ts)
  | group t _ => .group (formula t)

/-- The formulas of operands, from left to right. -/
def formulas : List NamedFormula → List Formula
  | [] => []
  | t :: ts => formula t :: formulas ts

end

mutual

/-- Whether two trees have the same names and the same structure, the names looked at first. -/
def same (t u : NamedFormula) : Bool :=
  t.name == u.name && match t, u with
    | top, top => true
    | bot, bot => true
    | undef, undef => true
    | atom a, atom b => a == b
    | not t _, not u _ => same t u
    | and ts _, and us _ => sameAll ts us
    | or ts _, or us _ => sameAll ts us
    | group t _, group u _ => same t u
    | _, _ => false

/-- Whether two lists of operands are the same, one by one. -/
def sameAll : List NamedFormula → List NamedFormula → Bool
  | [], [] => true
  | t :: ts, u :: us => same t u && sameAll ts us
  | _, _ => false

end

/-- Each node stores the name that `build` gives it: the tree is the one made of its formula. -/
def Exact (t : NamedFormula) : Prop := t.formula.fold build = t

/-! ## Trees made of formulas -/

/-- A function that goes through the nodes can be applied while they are made. -/
lemma apply_fold {β γ : Type} {f : β → γ} {collapse : Layer β → β} {collapse' : Layer γ → γ}
    (h : ∀ layer, f (collapse layer) = collapse' (layer.map f)) (p : Formula) :
    f (p.fold collapse) = p.fold collapse' := by
  induction p with
  | top | bot | undef | atom => exact h _
  | not p ih | group p ih => rw [Formula.fold, h, Layer.map, ih, Formula.fold]
  | and ps ih | or ps ih =>
    have operands : ps.map (f ∘ Formula.fold collapse) = ps.map (Formula.fold collapse') :=
      List.map_congr_left ih
    rw [Formula.fold, h, Layer.map, Formula.fold, Formula.foldAll_eq_map, Formula.foldAll_eq_map,
      List.map_map, operands]

/-- The operands of a node lose their stored names one by one. -/
lemma formulas_eq_map (ts : List NamedFormula) : formulas ts = ts.map formula := by
  induction ts with
  | nil => rfl
  | cons t ts ih => rw [formulas, ih, List.map_cons]

/-- A tree that is made of a formula is a tree of this formula. -/
@[simp] lemma formula_fold (p : Formula) : (p.fold build).formula = p := by
  induction p with
  | top | bot | undef | atom => rfl
  | not p ih | group p ih => rw [Formula.fold, build, formula, ih]
  | and ps ih | or ps ih =>
    have operands : formulas (ps.map (Formula.fold build)) = ps := by
      rw [formulas_eq_map, List.map_map]
      exact (List.map_congr_left ih).trans ps.map_id
    rw [Formula.fold, build, formula, Formula.foldAll_eq_map, operands]

/-- A tree that is made of a formula stores the name of the formula. -/
@[simp] lemma name_fold (p : Formula) : (p.fold build).name = p.name :=
  apply_fold (fun layer => by cases layer <;> rfl) p

/-- Of the trees of a formula, the one that is made of it is exact. -/
theorem exact_fold (p : Formula) : (p.fold build).Exact := by
  rw [Exact, formula_fold]

namespace Exact

variable {t u : NamedFormula}

/-- A node that is made above exact trees is exact. -/
theorem build {layer : Layer NamedFormula} (h : ∀ t ∈ layer.results, t.Exact) :
    (build layer).Exact := by
  cases layer with
  | top | bot | undef | atom => rfl
  | not t | group t =>
    have operand : t.formula.fold NamedFormula.build = t := h t List.mem_cons_self
    rw [Exact, NamedFormula.build, formula, Formula.fold, operand, NamedFormula.build]
  | and ts | or ts =>
    have operands : (formulas ts).map (Formula.fold NamedFormula.build) = ts := by
      rw [formulas_eq_map, List.map_map]
      exact (List.map_congr_left h).trans ts.map_id
    rw [Exact, NamedFormula.build, formula, Formula.fold, Formula.foldAll_eq_map, operands,
      NamedFormula.build]

/-- An exact tree stores the name of its formula. -/
theorem name_eq (h : t.Exact) : t.name = t.formula.name := by
  rw [← name_fold t.formula, h]

/-- An exact tree is known by its formula. -/
theorem eq_of_formula_eq (ht : t.Exact) (hu : u.Exact) (h : t.formula = u.formula) : t = u := by
  rw [← ht, h, hu]

end Exact

/-! ## Comparison -/

/-- Lists of trees are compared as lists of formulas when their elements are. -/
lemma sameAll_foldAll {ps : List Formula}
    (h : ∀ p ∈ ps, ∀ q : Formula, same (p.fold build) (q.fold build) = true ↔ p = q)
    (qs : List Formula) :
    sameAll (Formula.foldAll build ps) (Formula.foldAll build qs) = true ↔ ps = qs := by
  induction ps generalizing qs with
  | nil => cases qs <;> simp [Formula.foldAll, sameAll]
  | cons p ps ih =>
    cases qs with
    | nil => simp [Formula.foldAll, sameAll]
    | cons q qs =>
      simp [Formula.foldAll, sameAll, h p List.mem_cons_self,
        ih fun p' hp' => h p' (List.mem_cons_of_mem p hp')]

/-- A look at the names first does not change what is compared: equal formulas have one name. -/
lemma same_fold (p q : Formula) : same (p.fold build) (q.fold build) = true ↔ p = q := by
  induction p generalizing q with
  | top | bot | undef | atom => cases q <;> simp +contextual [Formula.fold, build, same]
  | not p ih | group p ih => cases q <;> simp +contextual [Formula.fold, build, same, ih]
  | and ps ih | or ps ih =>
    cases q <;> simp +contextual [Formula.fold, build, same, sameAll_foldAll ih]

/-- Exact trees are the same for the comparison when they are trees of one formula. -/
theorem Exact.same_iff {t u : NamedFormula} (ht : t.Exact) (hu : u.Exact) :
    same t u = true ↔ t.formula = u.formula := by
  have compared := same_fold t.formula u.formula
  rwa [ht, hu] at compared

end NamedFormula

end RuleFormula
