import Mathlib.Data.List.Sort
import Mathlib.Tactic.SplitIfs
import RuleFormula.Bitmap.Text
import RuleFormula.Proofs.Bitmap.Packing

/-!
# The members of a bitmap as a list

`Bitmap.members` goes over the words from the first to the last. It lists the members once each in
increasing order (`pairwise_members`), and there are as many of them as bits are set in the words
(`length_members`). A tight bitmap has no member exactly when all its words are zero.
-/

namespace RuleFormula

namespace Bitmap

variable {b : Bitmap} {base i : Nat} {w : Word} {ws : List Word}

/-! ## The members of one word -/

/-- A clear word has no member. -/
lemma setBits_zero (base : Nat) : setBits base 0 = [] := if_pos rfl

/-- The members of a word are listed by going over its bits from the lowest on. -/
lemma setBits_eq (base : Nat) (w : Word) :
    setBits base w = ((List.range 64).filter w.getLsbD).map (base + ·) := by
  unfold setBits
  split_ifs with h
  · subst h
    simp
  · rfl

/-- The members of a word do not lie before it. -/
lemma le_of_mem_setBits (h : i ∈ setBits base w) : base ≤ i := by
  obtain ⟨j, _, _, rfl⟩ := mem_setBits.1 h
  exact Nat.le_add_right base j

/-- The members of a word do not lie behind it. -/
lemma lt_of_mem_setBits (h : i ∈ setBits base w) : i < base + 64 := by
  obtain ⟨j, hj, _, rfl⟩ := mem_setBits.1 h
  exact Nat.add_lt_add_left hj base

/-- The members of a word are listed in increasing order. -/
lemma pairwise_setBits (base : Nat) (w : Word) : (setBits base w).Pairwise (· < ·) := by
  rw [setBits_eq]
  refine List.pairwise_map.2 ((List.pairwise_lt_range.filter _).imp fun h => ?_)
  exact Nat.add_lt_add_left h base

/-- Counting the bits of a word that are set counts the members listed so far. -/
lemma cpopNatRec_eq_length (w : Word) (n : Nat) :
    w.cpopNatRec n 0 = ((List.range n).filter w.getLsbD).length := by
  induction n with
  | zero => rfl
  | succ n ih =>
    rw [BitVec.cpopNatRec_succ, BitVec.cpopNatRec_eq, ih, List.range_succ, List.filter_append,
      List.length_append, List.filter_singleton]
    cases w.getLsbD n <;> simp

/-- A word has as many members as bits are set in it. -/
lemma length_setBits (base : Nat) (w : Word) : (setBits base w).length = w.cpop.toNat := by
  rw [setBits_eq, List.length_map, BitVec.toNat_cpop, cpopNatRec_eq_length]

/-! ## The members of words -/

/-- The indices of the bits that are set in words, the lowest bit of which has the index `base`. -/
def membersFrom (base : Nat) : List Word → List Nat
  | [] => []
  | w :: ws => setBits base w ++ membersFrom (base + 64) ws

/-- Words paired with their places have the members of the words one after the other. -/
lemma members_zipIdx (ws : List Word) (k : Nat) :
    ((ws.zipIdx k).map fun (w, k) => setBits (64 * k) w).flatten = membersFrom (64 * k) ws := by
  induction ws generalizing k with
  | nil => rfl
  | cons w ws ih =>
    rw [List.zipIdx_cons, List.map_cons, List.flatten_cons, ih, membersFrom]
    rfl

/-- The members of a bitmap are those of its words, from the index 0 on. -/
lemma members_eq (b : Bitmap) : b.members = membersFrom 0 b.words := members_zipIdx b.words 0

/-- The members of words do not lie before the first word. -/
lemma le_of_mem_membersFrom (h : i ∈ membersFrom base ws) : base ≤ i := by
  induction ws generalizing base with
  | nil => cases h
  | cons w ws ih =>
    rcases List.mem_append.1 h with h | h
    · exact le_of_mem_setBits h
    · exact Nat.le_of_add_right_le (ih h)

/-- The members of words are listed in increasing order: each word lies behind those before it. -/
lemma pairwise_membersFrom (base : Nat) (ws : List Word) :
    (membersFrom base ws).Pairwise (· < ·) := by
  induction ws generalizing base with
  | nil => exact .nil
  | cons w ws ih =>
    refine List.pairwise_append.2 ⟨pairwise_setBits base w, ih (base + 64), fun i hi j hj => ?_⟩
    exact Nat.lt_of_lt_of_le (lt_of_mem_setBits hi) (le_of_mem_membersFrom hj)

/-- There are as many members in words as their bits that are set. -/
lemma length_membersFrom (base : Nat) (ws : List Word) :
    (membersFrom base ws).length = ws.foldr (fun w n => w.cpop.toNat + n) 0 := by
  induction ws generalizing base with
  | nil => rfl
  | cons w ws ih => rw [membersFrom, List.length_append, length_setBits, ih, List.foldr_cons]

/-! ## The members of a bitmap -/

/-- The members of a bitmap are listed in increasing order. -/
lemma pairwise_members (b : Bitmap) : b.members.Pairwise (· < ·) :=
  members_eq b ▸ pairwise_membersFrom 0 b.words

/-- The members that are listed are as many as the bitmap counts. -/
lemma length_members (b : Bitmap) : b.members.length = b.count := by
  rw [members_eq, length_membersFrom]
  rfl

/-- The members of a tight bitmap are the indices that it contains. -/
lemma Tight.mem_members (t : b.Tight) : i ∈ b.members ↔ b.contains i = true := by
  rw [Bitmap.mem_members, t.contains_eq_bitAt]

/-- An empty bitmap contains no index, tight or not. -/
lemma contains_of_isEmpty (h : b.isEmpty = true) (i : Nat) : b.contains i = false := by
  have zero : ∀ w ∈ b.words, w = 0 := fun w hw => beq_iff_eq.1 (List.all_eq_true.1 h w hw)
  have clear : (0 : Word).getLsbD (i % 64) = false := BitVec.getLsbD_zero
  rw [contains_eq, bitAt]
  by_cases hi : i / 64 < b.words.length
  · rw [List.getD_eq_getElem _ _ hi, zero _ (List.getElem_mem hi), clear, Bool.and_false]
  · rw [List.getD_eq_default _ _ (Nat.not_lt.1 hi), clear, Bool.and_false]

/-- The bitmap with no member is empty. -/
lemma isEmpty_empty (n : Nat) : (empty n).isEmpty = true := by
  rw [isEmpty, empty, List.all_eq_true]
  intro w hw
  rw [List.eq_of_mem_replicate hw]
  rfl

/-- A tight bitmap is empty exactly when it contains no index. -/
lemma Tight.isEmpty_iff (t : b.Tight) : b.isEmpty = true ↔ ∀ i, b.contains i = false := by
  refine ⟨contains_of_isEmpty, fun h => ?_⟩
  have none : b = empty b.size :=
    t.ext (tight_empty b.size) rfl fun i => (h i).trans (contains_empty b.size i).symm
  rw [none]
  exact isEmpty_empty b.size

end Bitmap

end RuleFormula
