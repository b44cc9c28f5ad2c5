import RuleFormula.Formula.Truth
import RuleFormula.Proofs.Bitmap.Packing
import RuleFormula.Proofs.Formula.Connectives

/-!
# The bitmap of an atom, chunk by chunk

The word of a chunk can be put together from the items that pass: each of them sets the bit of its
position in the chunk (`passingWord`). It is the word that is packed of the results of all items of
the chunk (`passingWord_eq`). So the bitmap of an atom whose test ends on every item is made of one
such word for each chunk, and it is the bitmap of the results one after the other
(`ofTests_of_returns`).
-/

namespace RuleFormula

namespace Bitmap

variable {α β : Type} {n : Nat}

/-! ## The word of a chunk -/

/-- The word in which each item of a chunk that passes has set the bit of its position. -/
def passingWord (holds : α → Bool) (chunk : List α) : Word :=
  (chunk.zipIdx.filter fun x => holds x.1).foldl (fun w x => w ||| BitVec.twoPow 64 x.2) 0

/-- A bit is set when it was set before or is the bit of one of the positions. -/
lemma getLsbD_foldl_twoPow (w : Word) (xs : List (α × Nat)) {j : Nat} (hj : j < 64) :
    (xs.foldl (fun w x => w ||| BitVec.twoPow 64 x.2) w).getLsbD j = true ↔
      w.getLsbD j = true ∨ ∃ x ∈ xs, x.2 = j := by
  induction xs generalizing w with
  | nil => simp
  | cons x xs ih =>
    have bit : (BitVec.twoPow 64 x.2).getLsbD j = true ↔ x.2 = j := by
      rw [BitVec.getLsbD_twoPow, Bool.and_eq_true, decide_eq_true_eq, decide_eq_true_eq]
      omega
    rw [List.foldl_cons, ih, BitVec.getLsbD_or, Bool.or_eq_true, bit, List.exists_mem_cons_iff,
      or_assoc]

/-- The bits of a word are the answers for the items of its chunk. -/
lemma getLsbD_passingWord (holds : α → Bool) (chunk : List α) {j : Nat} (hj : j < 64) :
    (passingWord holds chunk).getLsbD j = (chunk.map holds).getD j false := by
  have zero : (0 : Word).getLsbD j = false := BitVec.getLsbD_zero
  rw [Bool.eq_iff_iff, passingWord, getLsbD_foldl_twoPow 0 _ hj, zero, List.getD_eq_getElem?_getD,
    List.getElem?_map]
  constructor
  · intro set
    obtain none | ⟨⟨x, i⟩, hx, rfl⟩ := set
    · cases none
    · obtain ⟨hx, pass⟩ := List.mem_filter.1 hx
      rw [List.mk_mem_zipIdx_iff_getElem?.1 hx]
      exact pass
  · intro pass
    cases hx : chunk[j]? with
    | none =>
      rw [hx] at pass
      cases pass
    | some x =>
      rw [hx] at pass
      exact .inr ⟨(x, j), List.mem_filter.2 ⟨List.mk_mem_zipIdx_iff_getElem?.2 hx, pass⟩, rfl⟩

/-- The items that pass make the word of the results of all items. -/
lemma passingWord_eq (holds : α → Bool) (chunk : List α) :
    passingWord holds chunk = wordOf (chunk.map holds) := by
  refine BitVec.eq_of_getLsbD_eq fun j hj => ?_
  rw [getLsbD_passingWord holds chunk hj, getLsbD_wordOf _ hj]

/-! ## The words of all chunks -/

/-- No chunk is too long for its word. -/
lemma length_le_of_mem_chunks {xs chunk : List α} (h : chunk ∈ chunks n xs) :
    chunk.length ≤ n + 1 := by
  fun_induction chunks n xs with
  | case1 => cases h
  | case2 x xs ih =>
    obtain rfl | h := List.mem_cons.1 h
    · exact Nat.succ_le_succ (List.length_take_le n xs)
    · exact ih h

/-- Items may be changed one by one before or after they are divided into chunks. -/
lemma chunks_map (f : α → β) (xs : List α) :
    chunks n (xs.map f) = (chunks n xs).map (List.map f) := by
  induction xs using chunk_induction n with
  | nil => rw [List.map_nil, chunks_nil, chunks_nil, List.map_nil]
  | last xs hne hlen =>
    rw [chunks_of_length_le hne hlen, chunks_of_length_le (mt List.map_eq_nil_iff.1 hne)
      (List.length_map f ▸ hlen), List.map_singleton]
  | full xs more hlen ih =>
    rw [List.map_append, chunks_append (List.length_map f ▸ hlen), ih, chunks_append hlen,
      List.map_cons]

/-- The words of the answers are made chunk by chunk. -/
lemma wordsOf_map (holds : α → Bool) (items : List α) :
    wordsOf (items.map holds) = (chunks 63 items).map (passingWord holds) := by
  rw [wordsOf, chunks_map, List.map_map]
  exact List.map_congr_left fun chunk _ => (passingWord_eq holds chunk).symm

end Bitmap

namespace Evaluation

open Bitmap

variable {α : Type} {tests : Interpretation α} {a : Atom} {items : List α} {holds : α → Bool}

/-- Where the test of an atom ends on every item of a list, each chunk of up to 64 items is folded
into a word of its own, the words are as many as the bitmap needs, and they make the bitmap of the
truth values on the items one after the other. -/
theorem ofTests_of_returns (h : ∀ x ∈ items, tests a x = .ok (holds x)) :
    (∀ chunk ∈ chunks 63 items, chunk.length ≤ 64) ∧
    packWords (tests a) items = .ok ((chunks 63 items).map (passingWord holds)) ∧
    ∃ b, ofWords ((chunks 63 items).map (passingWord holds)) items.length = .ok b ∧
      ofTests (tests a) items = .ok b ∧ (b == ofBools (items.map holds)) = true := by
  have results : items.mapM (tests a) = .ok (items.map holds) := mapM_eq_ok h
  have made := ofWords_wordsOf (items.map holds)
  rw [wordsOf_map, List.length_map] at made
  refine ⟨fun chunk => length_le_of_mem_chunks, ?_, _, made, ?_, beq_self_eq_true _⟩
  · rw [packWords_eq, results, ← wordsOf_map]
    rfl
  · rw [ofTests_eq, results]
    rfl

/-- A chunk of 64 items and one of a single item; on other items the test faults. -/
theorem ofTests_of_short_chunk :
    ∃ b, ofTests (fun x => (if x < 65 then .ok (x % 2 == 0) else .error (.raised "too large") :
        Except Fault Bool))
      (List.range 65) = .ok b ∧ (b == ofBools ((List.range 65).map (· % 2 == 0))) = true ∧
        b.contains 63 = false ∧ b.contains 64 = true := by
  have returns : ∀ x ∈ List.range 65,
      (if x < 65 then .ok (x % 2 == 0) else .error (.raised "too large") : Except Fault Bool) =
        .ok (x % 2 == 0) := fun x hx => if_pos (List.mem_range.1 hx)
  obtain ⟨_, _, b, _, made, same⟩ := @ofTests_of_returns Nat
    (fun _ x => if x < 65 then .ok (x % 2 == 0) else .error (.raised "too large"))
    ⟨0, "even", true⟩ (List.range 65) (· % 2 == 0) returns
  refine ⟨b, made, same, ?_⟩
  obtain rfl := beq_iff_eq.1 same
  rw [contains_ofBools, contains_ofBools]
  decide

end Evaluation

end RuleFormula
