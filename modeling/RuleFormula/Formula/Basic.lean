import RuleFormula.Keyword

/-!
# Formulas

A formula is a boolean combination of named tests. The tests themselves are atoms: an atom is known
by the number of its creation, so that two atoms with one name are still told apart. Beside the two
constants there is the undefined formula, which stands for a result that cannot be had.

`Formula.fold` goes over a formula from the leaves to the root, and sees each node as a `Layer`
whose operands are already replaced by their results. The observations of a formula are folds: its
name, the atoms at its leaves, its complexity, and whether it can be negated.
-/

namespace RuleFormula

/-- A named test. -/
structure Atom where
  /-- The number of its creation, which tells it from all other atoms. -/
  id : Nat
  name : String
  /-- Whether it may stand under a negation. -/
  negatable : Bool
deriving DecidableEq, Repr

/-- Equal atoms hash alike, for only the name is hashed. -/
instance : Hashable Atom := ⟨fun a => hash a.name⟩

/-- A boolean combination of atoms. The constructors build any shape; the operations of
`RuleFormula.Formula.Canonical` build the canonical ones. -/
inductive Formula
  | top
  | bot
  | undef
  | atom (a : Atom)
  | not (p : Formula)
  | and (ps : List Formula)
  | or (ps : List Formula)
  | group (p : Formula)
deriving Repr

/-- One node of a formula, with results in the place of its operands. -/
inductive Layer (β : Type)
  | top
  | bot
  | undef
  | atom (a : Atom)
  | not (x : β)
  | and (xs : List β)
  | or (xs : List β)
  | group (x : β)
deriving DecidableEq, Repr

namespace Layer

variable {β γ : Type}

/-- Changes the results that stand in the place of the operands. -/
def map (f : β → γ) : Layer β → Layer γ
  | top => top
  | bot => bot
  | undef => undef
  | atom a => atom a
  | not x => not (f x)
  | and xs => and (xs.map f)
  | or xs => or (xs.map f)
  | group x => group (f x)

/-- The results that stand in the place of the operands, from left to right. -/
def results : Layer β → List β
  | not x => [x]
  | and xs => xs
  | or xs => xs
  | group x => [x]
  | _ => []

end Layer

namespace Formula

/-- What holds of a node when it holds of its operands holds of every formula. -/
@[elab_as_elim, induction_eliminator]
theorem induct {motive : Formula → Prop} (top : motive .top) (bot : motive .bot)
    (undef : motive .undef) (atom : ∀ a, motive (.atom a)) (not : ∀ p, motive p → motive (.not p))
    (and : ∀ ps, (∀ p ∈ ps, motive p) → motive (.and ps))
    (or : ∀ ps, (∀ p ∈ ps, motive p) → motive (.or ps))
    (group : ∀ p, motive p → motive (.group p)) (p : Formula) : motive p :=
  @Formula.rec motive (fun ps => ∀ p ∈ ps, motive p) top bot undef atom not and or group (by simp)
    (fun _ _ hp hps => by simpa using ⟨hp, hps⟩) p

/-! ## Folding -/

mutual

/-- Collapses a formula from the leaves to the root. -/
def fold {β : Type} (collapse : Layer β → β) : Formula → β
  | top => collapse .top
  | bot => collapse .bot
  | undef => collapse .undef
  | atom a => collapse (.atom a)
  | not p => collapse (.not (fold collapse p))
  | and ps => collapse (.and (foldAll collapse ps))
  | or ps => collapse (.or (foldAll collapse ps))
  | group p => collapse (.group (fold collapse p))

/-- Collapses the operands of a node, from left to right. -/
def foldAll {β : Type} (collapse : Layer β → β) : List Formula → List β
  | [] => []
  | p :: ps => fold collapse p :: foldAll collapse ps

end

/-- Operands are collapsed one by one. -/
theorem foldAll_eq_map {β : Type} (collapse : Layer β → β) (ps : List Formula) :
    foldAll collapse ps = ps.map (fold collapse) := by
  induction ps with
  | nil => rfl
  | cons p ps ih => simp [foldAll, ih]

/-! ## Equality -/

mutual

/-- Whether two formulas have the same structure and the same atoms. -/
def same : Formula → Formula → Bool
  | top, top => true
  | bot, bot => true
  | undef, undef => true
  | atom a, atom b => a == b
  | not p, not q => same p q
  | and ps, and qs => sameAll ps qs
  | or ps, or qs => sameAll ps qs
  | group p, group q => same p q
  | _, _ => false

/-- Whether two lists of operands are the same, one by one. -/
def sameAll : List Formula → List Formula → Bool
  | [], [] => true
  | p :: ps, q :: qs => same p q && sameAll ps qs
  | _, _ => false

end

/-- Lists of operands are compared as the operands are. -/
theorem sameAll_iff {ps : List Formula} (h : ∀ p ∈ ps, ∀ q, same p q = true ↔ p = q)
    (qs : List Formula) : sameAll ps qs = true ↔ ps = qs := by
  induction ps generalizing qs with
  | nil => cases qs <;> simp [sameAll]
  | cons p ps ih =>
    cases qs with
    | nil => simp [sameAll]
    | cons q qs => simp [sameAll, h p (by simp), ih fun p' hp' => h p' (by simp [hp'])]

/-- The comparison decides equality. -/
theorem same_iff (p q : Formula) : same p q = true ↔ p = q := by
  induction p generalizing q with
  | top | bot | undef | atom => cases q <;> simp [same]
  | not p ih | group p ih => cases q <;> simp [same, ih]
  | and ps ih | or ps ih => cases q <;> simp [same, sameAll_iff ih]

instance : DecidableEq Formula := fun p q => decidable_of_iff _ (same_iff p q)

/-! ## Names -/

/-- The name of a node made of the names of its operands. -/
def nameLayer : Layer String → String
  | .top => Keyword.true.text
  | .bot => Keyword.false.text
  | .undef => "Undefined"
  | .atom a => a.name
  | .not x => Keyword.not.text ++ " " ++ x
  | .and xs => (" " ++ Keyword.and.text ++ " ").intercalate xs
  | .or xs => (" " ++ Keyword.or.text ++ " ").intercalate xs
  | .group x => Keyword.leftParen.text ++ x ++ Keyword.rightParen.text

/-- The printed form of a formula. -/
def name (p : Formula) : String := p.fold nameLayer

@[simp] theorem name_top : name top = "TRUE" := rfl

@[simp] theorem name_bot : name bot = "FALSE" := rfl

@[simp] theorem name_undef : name undef = "Undefined" := rfl

@[simp] theorem name_atom (a : Atom) : (atom a).name = a.name := rfl

@[simp] theorem name_not (p : Formula) : (not p).name = "NOT " ++ p.name := rfl

@[simp] theorem name_group (p : Formula) : (group p).name = "(" ++ p.name ++ ")" := rfl

@[simp] theorem name_and (ps : List Formula) :
    (and ps).name = " AND ".intercalate (ps.map name) := by
  simp only [name, fold, foldAll_eq_map, nameLayer]
  rfl

@[simp] theorem name_or (ps : List Formula) :
    (or ps).name = " OR ".intercalate (ps.map name) := by
  simp only [name, fold, foldAll_eq_map, nameLayer]
  rfl

instance : ToString Formula := ⟨name⟩

/-- Equal formulas hash alike, for only the name is hashed. -/
instance : Hashable Formula := ⟨fun p => hash p.name⟩

/-! ## Other observations -/

/-- Only the undefined formula has no truth value: no other formula holds it inside. -/
def isDefined : Formula → Bool
  | undef => false
  | _ => true

/-- Whether a node can be negated, made of whether its operands can. -/
def negatableLayer : Layer Bool → Bool
  | .top => true
  | .bot => true
  | .undef => false
  | .atom a => a.negatable
  | .not x => x
  | .and xs => xs.all id
  | .or xs => xs.all id
  | .group x => x

/-- Whether a formula can be negated: each of its leaves must allow it. -/
def canNegate (p : Formula) : Bool := p.fold negatableLayer

@[simp] theorem canNegate_top : canNegate top = true := rfl

@[simp] theorem canNegate_bot : canNegate bot = true := rfl

@[simp] theorem canNegate_undef : canNegate undef = false := rfl

@[simp] theorem canNegate_atom (a : Atom) : (atom a).canNegate = a.negatable := rfl

@[simp] theorem canNegate_not (p : Formula) : (not p).canNegate = p.canNegate := rfl

@[simp] theorem canNegate_group (p : Formula) : (group p).canNegate = p.canNegate := rfl

@[simp] theorem canNegate_and (ps : List Formula) : (and ps).canNegate = ps.all canNegate := by
  simp only [canNegate, fold, foldAll_eq_map, negatableLayer, List.all_map]
  rfl

@[simp] theorem canNegate_or (ps : List Formula) : (or ps).canNegate = ps.all canNegate := by
  simp only [canNegate, fold, foldAll_eq_map, negatableLayer, List.all_map]
  rfl

/-- The complexity of a node made of those of its operands. -/
def complexityLayer : Layer Nat → Nat
  | .top => 1
  | .bot => 1
  | .undef => 1
  | .atom _ => 1
  | .not x => 1 + x
  | .and xs => 1 + xs.foldr (· + ·) 0
  | .or xs => 1 + xs.foldr (· + ·) 0
  | .group x => x

/-- The number of leaves, negations, conjunctions and disjunctions. -/
def complexity (p : Formula) : Nat := p.fold complexityLayer

@[simp] theorem complexity_top : complexity top = 1 := rfl

@[simp] theorem complexity_bot : complexity bot = 1 := rfl

@[simp] theorem complexity_undef : complexity undef = 1 := rfl

@[simp] theorem complexity_atom (a : Atom) : (atom a).complexity = 1 := rfl

@[simp] theorem complexity_not (p : Formula) : (not p).complexity = 1 + p.complexity := rfl

@[simp] theorem complexity_group (p : Formula) : (group p).complexity = p.complexity := rfl

@[simp] theorem complexity_and (ps : List Formula) :
    (and ps).complexity = 1 + (ps.map complexity).foldr (· + ·) 0 := by
  simp only [complexity, fold, foldAll_eq_map, complexityLayer]
  rfl

@[simp] theorem complexity_or (ps : List Formula) :
    (or ps).complexity = 1 + (ps.map complexity).foldr (· + ·) 0 := by
  simp only [complexity, fold, foldAll_eq_map, complexityLayer]
  rfl

/-- The depth of a node made of those of its operands. -/
def depthLayer : Layer Nat → Nat
  | .not x => 1 + x
  | .and xs => 1 + xs.foldl max 0
  | .or xs => 1 + xs.foldl max 0
  | .group x => 1 + x
  | _ => 0

/-- The number of nodes above the deepest leaf. -/
def depth (p : Formula) : Nat := p.fold depthLayer

/-- The atoms at the leaves of a node made of those of its operands. -/
def leavesLayer : Layer (List Atom) → List Atom
  | .top => []
  | .bot => []
  | .undef => []
  | .atom a => [a]
  | .not x => x
  | .and xs => xs.flatten
  | .or xs => xs.flatten
  | .group x => x

/-- The atoms at the leaves, from left to right. -/
def leaves (p : Formula) : List Atom := p.fold leavesLayer

@[simp] theorem leaves_top : leaves top = [] := rfl

@[simp] theorem leaves_bot : leaves bot = [] := rfl

@[simp] theorem leaves_undef : leaves undef = [] := rfl

@[simp] theorem leaves_atom (a : Atom) : (atom a).leaves = [a] := rfl

@[simp] theorem leaves_not (p : Formula) : (not p).leaves = p.leaves := rfl

@[simp] theorem leaves_group (p : Formula) : (group p).leaves = p.leaves := rfl

@[simp] theorem leaves_and (ps : List Formula) : (and ps).leaves = ps.flatMap leaves := by
  simp only [leaves, fold, foldAll_eq_map, leavesLayer, List.flatMap]
  rfl

@[simp] theorem leaves_or (ps : List Formula) : (or ps).leaves = ps.flatMap leaves := by
  simp only [leaves, fold, foldAll_eq_map, leavesLayer, List.flatMap]
  rfl

/-- The distinct atoms of a formula. -/
def atoms (p : Formula) : List Atom := p.leaves.eraseDups

/-- The operands of a conjunction or disjunction. -/
def operands? : Formula → Option (List Formula)
  | and ps => some ps
  | or ps => some ps
  | _ => none

/-- The formulas right below a node. -/
def children : Formula → List Formula
  | not p => [p]
  | and ps => ps
  | or ps => ps
  | group p => [p]
  | _ => []

end Formula

end RuleFormula
