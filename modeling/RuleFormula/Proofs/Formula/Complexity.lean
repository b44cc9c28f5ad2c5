import Mathlib.Algebra.Order.BigOperators.Group.List
import RuleFormula.Proofs.Formula.Flattening
import RuleFormula.Proofs.Formula.Removal

/-!
# Complexity and the length of the name

The complexity of a formula that can be made is at most one more than the number of bytes of its
name (`Constructible.complexity_le`): each connective is written between its operands, and a
separator is longer than what the node and an operand without a name add to the complexity. So the
complexity is computed in machine words without overflow when the name is short enough for them
(`complexity_within_name`). No such bound is known from the number of calls that make a formula:
each call can double the complexity, as its operands may be one and the same formula (`doubled`).
-/

namespace RuleFormula

open Reading (Connective)

/-- The connective that is not this one. -/
def Reading.Connective.other : Connective → Connective
  | .and => .or
  | .or => .and

namespace Formula

variable {w : Nat} {o : Connective} {p q : Formula} {ps : List Formula} {a : Atom}

/-! ## Complexity in machine words -/

/-- The sum of two words of `w` bits; there is none where it overflows. -/
def addWords (x y : BitVec w) : Option (BitVec w) := if x.uaddOverflow y then none else some (x + y)

/-- The sum of words, which are added from left to right. -/
def sumWords (xs : List (BitVec w)) : Option (BitVec w) := xs.foldlM addWords 0

/-- The complexity of a node in words of `w` bits, made of those of its operands. -/
def wordComplexityLayer : Layer (Option (BitVec w)) → Option (BitVec w)
  | .top | .bot | .undef | .atom _ => some 1
  | .not x => x >>= addWords 1
  | .and xs | .or xs => xs.mapM id >>= sumWords >>= addWords 1
  | .group x => x

/-- The complexity of a formula computed in words of `w` bits; there is none where a sum
overflows. -/
def wordComplexity (w : Nat) (p : Formula) : Option (BitVec w) := p.fold wordComplexityLayer

/-- Words are added as the numbers that they stand for, if the sum fits into a word. -/
lemma addWords_ofNat {m n : Nat} (h : m + n < 2 ^ w) :
    addWords (BitVec.ofNat w m) (BitVec.ofNat w n) = some (.ofNat w (m + n)) := by
  have fits : (BitVec.ofNat w m).uaddOverflow (BitVec.ofNat w n) = false := by
    rw [BitVec.uaddOverflow, BitVec.toNat_ofNat, BitVec.toNat_ofNat,
      Nat.mod_eq_of_lt (Nat.lt_of_le_of_lt (Nat.le_add_right m n) h),
      Nat.mod_eq_of_lt (Nat.lt_of_le_of_lt (Nat.le_add_left n m) h)]
    exact decide_eq_false (Nat.not_le.2 h)
  rw [addWords, fits, BitVec.ofNat_add]
  rfl

/-- Words added to a word give the sum of the numbers: no sum on the way is greater than the last.
-/
lemma foldlM_addWords_ofNat {ns : List Nat} {m : Nat} (h : m + ns.sum < 2 ^ w) :
    (ns.map (BitVec.ofNat w)).foldlM addWords (.ofNat w m) = some (.ofNat w (m + ns.sum)) := by
  induction ns generalizing m with
  | nil => rfl
  | cons n ns ih =>
    rw [List.sum_cons, ← Nat.add_assoc] at h ⊢
    rw [List.map_cons, List.foldlM_cons,
      addWords_ofNat (Nat.lt_of_le_of_lt (Nat.le_add_right _ _) h)]
    exact ih h

/-- Words add up as the numbers that they stand for, if the sum fits into a word. -/
lemma sumWords_ofNat {ns : List Nat} (h : ns.sum < 2 ^ w) :
    sumWords (ns.map (BitVec.ofNat w)) = some (.ofNat w ns.sum) := by
  rw [← Nat.zero_add ns.sum] at h ⊢
  exact foldlM_addWords_ofNat h

/-- The complexity of a connective is one more than the sum over its operands, in words too. -/
lemma wordComplexity_form (w : Nat) (o : Connective) (ps : List Formula) :
    (o.form ps).wordComplexity w = ps.mapM (wordComplexity w) >>= sumWords >>= addWords 1 := by
  have operands : (foldAll wordComplexityLayer ps).mapM id = ps.mapM (wordComplexity w) := by
    rw [foldAll_eq_map, List.mapM_map]
    rfl
  cases o with
  | and => exact congrArg (· >>= sumWords >>= addWords 1) operands
  | or => exact congrArg (· >>= sumWords >>= addWords 1) operands

/-- Where words can hold the complexity, none of the sums on the way to it overflows. -/
lemma wordComplexity_eq (h : p.complexity < 2 ^ w) :
    p.wordComplexity w = some (.ofNat w p.complexity) := by
  have connective {o : Connective} {ps : List Formula}
      (ih : ∀ p ∈ ps, p.complexity < 2 ^ w → p.wordComplexity w = some (.ofNat w p.complexity))
      (h : (o.form ps).complexity < 2 ^ w) :
      (o.form ps).wordComplexity w = some (.ofNat w (o.form ps).complexity) := by
    rw [complexity_form] at h ⊢
    have sum : (ps.map complexity).sum < 2 ^ w := Nat.lt_of_le_of_lt (Nat.le_add_left _ 1) h
    have operands : ps.mapM (wordComplexity w) =
        some ((ps.map complexity).map (BitVec.ofNat w)) := by
      rw [List.map_map]
      exact mapM_eq_pure fun p hp => ih p hp
        (Nat.lt_of_le_of_lt (List.le_sum_of_mem (List.mem_map_of_mem hp)) sum)
    rw [wordComplexity_form, operands]
    show sumWords _ >>= addWords 1 = _
    rw [sumWords_ofNat sum]
    exact addWords_ofNat h
  induction p with
  | top | bot | undef | atom => rfl
  | not p ih =>
    rw [complexity_not] at h ⊢
    have operand := ih (Nat.lt_of_le_of_lt (Nat.le_add_left _ 1) h)
    have layer : (not p).wordComplexity w = p.wordComplexity w >>= addWords 1 := rfl
    rw [layer, operand]
    exact addWords_ofNat h
  | and ps ih => exact connective (o := .and) ih h
  | or ps ih => exact connective (o := .or) ih h
  | group p ih => exact ih h

example (a b : Atom) : (or [atom a, atom b]).wordComplexity 1 = none := rfl

/-! ## Complexity and name -/

/-- The separator is written once less than there are texts. -/
lemma utf8ByteSize_intercalate (separator : String) {texts : List String} (hn : texts ≠ []) :
    (separator.intercalate texts).utf8ByteSize + separator.utf8ByteSize =
      (texts.map fun text => text.utf8ByteSize + separator.utf8ByteSize).sum := by
  induction texts with
  | nil => exact absurd rfl hn
  | cons text texts ih =>
    cases texts with
    | nil => rw [String.intercalate_singleton, List.map_singleton, List.sum_singleton]
    | cons text' texts =>
      rw [String.intercalate_cons_cons, String.utf8ByteSize_append, String.utf8ByteSize_append,
        List.map_cons, List.sum_cons, ← ih (List.cons_ne_nil _ _)]
      omega

/-- With two operands or more, a separator of two bytes or more makes up for what the node and each
operand add to the complexity. -/
lemma sum_complexity_le {separator : String} (hs : 2 ≤ separator.utf8ByteSize)
    (hl : 2 ≤ ps.length) (h : ∀ p ∈ ps, p.complexity ≤ p.name.utf8ByteSize + 1) :
    1 + (ps.map complexity).sum ≤ (separator.intercalate (ps.map name)).utf8ByteSize + 1 := by
  have some : ps.map name ≠ [] :=
    mt List.map_eq_nil_iff.1 (List.length_pos_iff.1 (Nat.lt_of_succ_lt hl))
  have written := utf8ByteSize_intercalate separator some
  rw [List.map_map] at written
  have each : (ps.map fun p => p.complexity + (separator.utf8ByteSize - 1)).sum ≤
      (ps.map fun p => p.name.utf8ByteSize + separator.utf8ByteSize).sum := by
    refine List.sum_le_sum fun p hp => ?_
    have := h p hp
    omega
  rw [List.sum_map_add, List.map_const', List.sum_replicate_nat] at each
  have separators : 2 * (separator.utf8ByteSize - 1) ≤ ps.length * (separator.utf8ByteSize - 1) :=
    Nat.mul_le_mul_right _ hl
  have names : (ps.map ((fun text => text.utf8ByteSize + separator.utf8ByteSize) ∘ name)).sum =
    (ps.map fun p => p.name.utf8ByteSize + separator.utf8ByteSize).sum := rfl
  omega

/-- In canonical shape the complexity is one more than the bytes of the name at most. -/
lemma Proper.complexity_le (h : Proper p) : p.complexity ≤ p.name.utf8ByteSize + 1 := by
  induction h with
  | atom a => exact Nat.le_add_left 1 _
  | not _ _ _ ih =>
    have keyword : "NOT ".utf8ByteSize = 4 := by decide
    rw [complexity_not, name_not, String.utf8ByteSize_append]
    omega
  | and hl _ _ _ ih =>
    rw [complexity_and, name_and]
    exact sum_complexity_le (by decide) hl ih
  | or hl _ _ _ ih =>
    rw [complexity_or, name_or]
    exact sum_complexity_le (by decide) hl ih
  | group _ _ ih =>
    rw [complexity_group, name_group, String.utf8ByteSize_append, String.utf8ByteSize_append]
    omega

/-- A formula that can be made is no more complex than its name is long, but for one. -/
lemma Constructible.complexity_le (h : Constructible p) :
    p.complexity ≤ p.name.utf8ByteSize + 1 := by
  obtain constant | proper := h.isNormal
  · obtain rfl | rfl | rfl := constant.eq <;> decide
  · exact proper.complexity_le

/-! ## Complexity and the number of calls -/

/-- What `n` calls of the connectives by turns make of an atom. Each call is given the result of the
one before as both operands; the last one is a call of `o`. -/
def doubled (a : Atom) : Connective → Nat → Formula
  | _, 0 => atom a
  | o, n + 1 => o.node [doubled a o.other n, doubled a o.other n]

/-- An atom or a formula of the other connective is an operand once it has its parentheses. -/
lemma isOperand_alone (h : q = atom a ∨ ∃ ps, q = o.other.form ps) :
    o.IsOperand (o.alone q) ∧ (o.alone q).complexity = q.complexity := by
  obtain rfl | ⟨ps, rfl⟩ := h <;> cases o <;> exact ⟨trivial, rfl⟩

/-- A formula of the other connective is not flattened, so that both operands are kept as they are.
-/
lemma node_pair (hq : IsNormal q) (h : q = atom a ∨ ∃ ps, q = o.other.form ps) :
    o.node [q, q] = o.form [o.alone q, o.alone q] := by
  obtain ⟨operand, _⟩ := isOperand_alone h
  have both : ∀ p ∈ [q, q], IsNormal p :=
    List.forall_mem_cons.2 ⟨hq, List.forall_mem_singleton.2 hq⟩
  have alone := Connective.node_map_alone (o := o) both
  rw [← alone, List.map_cons, List.map_singleton, o.node_singleton hq]
  refine Connective.node_eq_form (le_refl 2) ?_ ?_
  · exact List.forall_mem_cons.2 ⟨operand, List.forall_mem_singleton.2 operand⟩
  · exact List.pairwise_pair.2 (Ties.refl _).notAfter

/-- Doubling makes formulas that can be made. -/
lemma constructible_doubled (a : Atom) (o : Connective) (n : Nat) :
    Constructible (doubled a o n) := by
  induction n generalizing o with
  | zero => exact .atom a
  | succ n ih =>
    exact .node (List.cons_ne_nil _ _)
      (List.forall_mem_cons.2 ⟨ih o.other, List.forall_mem_singleton.2 (ih o.other)⟩)

/-- What is doubled is an atom or has its last connective at the root. -/
lemma doubled_cases (a : Atom) (o : Connective) (n : Nat) :
    doubled a o n = atom a ∨ ∃ ps, doubled a o n = o.form ps := by
  induction n generalizing o with
  | zero => exact .inl rfl
  | succ n ih => exact .inr ⟨_, node_pair (constructible_doubled a o.other n).isNormal (ih o.other)⟩

/-- Each call doubles the complexity. -/
lemma two_pow_le_complexity_doubled (a : Atom) (o : Connective) (n : Nat) :
    2 ^ n ≤ (doubled a o n).complexity := by
  induction n generalizing o with
  | zero => exact le_refl 1
  | succ n ih =>
    have other := doubled_cases a o.other n
    have normal := (constructible_doubled a o.other n).isNormal
    rw [doubled, node_pair normal other, complexity_form, List.map_cons, List.map_singleton,
      List.sum_cons, List.sum_singleton, (isOperand_alone other).2, Nat.pow_succ]
    have := ih o.other
    omega

/-- The complexity of a formula that can be made is at most the number of bytes of its name and one.
So no sum on the way to it overflows in words that hold this number, although the formula itself may
be exponentially larger than the number of calls that made it. -/
theorem complexity_within_name (h : Constructible p) :
    p.complexity ≤ p.name.utf8ByteSize + 1 ∧
    (∀ w, p.name.utf8ByteSize + 1 < 2 ^ w →
      ∃ v, p.wordComplexity w = some v ∧ v.toNat = p.complexity) ∧
    (∀ a o n, Constructible (doubled a o n) ∧ 2 ^ n ≤ (doubled a o n).complexity) := by
  have bound := h.complexity_le
  refine ⟨bound, fun w hw => ?_, fun a o n => ?_⟩
  · have fits : p.complexity < 2 ^ w := Nat.lt_of_le_of_lt bound hw
    refine ⟨_, wordComplexity_eq fits, ?_⟩
    rw [BitVec.toNat_ofNat, Nat.mod_eq_of_lt fits]
  · exact ⟨constructible_doubled a o n, two_pow_le_complexity_doubled a o n⟩

/-- An atom without a name, in a formula of eleven bytes. -/
theorem complexity_with_empty_name :
    Constructible (not (group (or [atom ⟨0, "", true⟩, atom ⟨1, "x", true⟩]))) ∧
    ∃ v, (not (group (or [atom ⟨0, "", true⟩, atom ⟨1, "x", true⟩]))).wordComplexity 4 = some v ∧
      v.toNat = 4 := by
  have disjunction : Constructible (or [atom ⟨0, "", true⟩, atom ⟨1, "x", true⟩]) :=
    constructible_atoms .or (by decide)
  have made := disjunction.negate
  rw [negate_or (by decide)] at made
  exact ⟨made, (complexity_within_name made).2.1 4 (by decide)⟩

end Formula

end RuleFormula
