import RuleFormula.Bitmap.Cursor
import RuleFormula.Proofs.Bitmap.Runs

/-!
# A walk over a bitmap

What a cursor has still to give are the members in what is left of its word and in the words after
it (`Cursor.remaining`). A step gives the first of them and leaves the others; where none is left it
gives nothing and leaves none (`Cursor.next_eq`). So a walk over a set of a run gives its members,
once each and in increasing order, and nothing from then on (`walk_lists_members`).
-/

namespace RuleFormula

namespace Bitmap

variable {base i : Nat} {w : Word} {ws : List Word} {b : Bitmap}

/-! ## The lowest bit of a word -/

/-- A word without its lowest bit. -/
abbrev withoutLowest (w : Word) : Word := w &&& ~~~(BitVec.twoPow 64 w.ctz.toNat)

/-- Only the lowest bit is cleared. -/
lemma getLsbD_withoutLowest (w : Word) {j : Nat} (hj : j < 64) :
    (withoutLowest w).getLsbD j = (w.getLsbD j && !decide (j = w.ctz.toNat)) := by
  rw [BitVec.getLsbD_and, BitVec.getLsbD_not, BitVec.getLsbD_twoPow, decide_eq_true hj,
    Bool.true_and]
  by_cases h : j = w.ctz.toNat
  · rw [h, decide_eq_true rfl, decide_eq_true (h ▸ hj), Bool.true_and]
  · rw [decide_eq_false h, decide_eq_false (Ne.symm h), Bool.and_false]

/-- A word that is not clear has a lowest bit. -/
lemma ctz_lt_of_ne_zero (h : w ≠ 0) : w.ctz.toNat < 64 :=
  BitVec.lt_of_getLsbD (BitVec.getLsbD_true_ctz_of_ne_zero h)

/-- Every member of a word but the lowest one is a member without the lowest bit. -/
lemma mem_setBits_iff_of_ne_zero (h : w ≠ 0) :
    i ∈ setBits base w ↔ i = base + w.ctz.toNat ∨ i ∈ setBits base (withoutLowest w) := by
  rw [mem_setBits, mem_setBits]
  constructor
  · rintro ⟨j, hj, hb, rfl⟩
    by_cases hl : j = w.ctz.toNat
    · exact .inl (hl ▸ rfl)
    · refine .inr ⟨j, hj, ?_, rfl⟩
      rw [getLsbD_withoutLowest w hj, hb, decide_eq_false hl]
      rfl
  · rintro (rfl | ⟨j, hj, hb, rfl⟩)
    · exact ⟨_, ctz_lt_of_ne_zero h, BitVec.getLsbD_true_ctz_of_ne_zero h, rfl⟩
    · rw [getLsbD_withoutLowest w hj, Bool.and_eq_true] at hb
      exact ⟨j, hj, hb.1, rfl⟩

/-- The other members of a word come after the lowest one. -/
lemma lt_of_mem_setBits_withoutLowest (h : i ∈ setBits base (withoutLowest w)) :
    base + w.ctz.toNat < i := by
  obtain ⟨j, hj, hb, rfl⟩ := mem_setBits.1 h
  rw [getLsbD_withoutLowest w hj, Bool.and_eq_true, Bool.not_eq_true',
    decide_eq_false_iff_not] at hb
  have le : w.ctz.toNat ≤ j := by
    by_contra hlt
    have clear := BitVec.getLsbD_false_of_lt_ctz (Nat.lt_of_not_le hlt)
    cases hb.1.symm.trans clear
  exact Nat.add_lt_add_left (Nat.lt_of_le_of_ne le (Ne.symm hb.2)) base

/-- The members of a word are the lowest one and then those without the lowest bit. -/
lemma setBits_eq_cons (h : w ≠ 0) :
    setBits base w = (base + w.ctz.toNat) :: setBits base (withoutLowest w) := by
  have sorted : ((base + w.ctz.toNat) :: setBits base (withoutLowest w)).Pairwise (· < ·) :=
    List.pairwise_cons.2
      ⟨fun _ => lt_of_mem_setBits_withoutLowest, pairwise_setBits base (withoutLowest w)⟩
  refine (pairwise_setBits base w).eq_of_mem_iff sorted fun i => ?_
  rw [mem_setBits_iff_of_ne_zero h, List.mem_cons]

/-! ## Steps -/

/-- The members that a cursor has still to give. -/
def Cursor.remaining (c : Cursor) : List Nat := membersFrom c.base (c.word :: c.rest)

/-- Going over clear words to the next member passes no member over. -/
lemma Cursor.advance_eq (base : Nat) (w : Word) (ws : List Word) :
    (advance base w ws).1 = (membersFrom base (w :: ws)).head? ∧
      (advance base w ws).2.remaining = (membersFrom base (w :: ws)).tail := by
  fun_induction advance base w ws with
  | case1 base =>
    rw [Cursor.remaining, membersFrom, setBits_zero]
    exact ⟨rfl, rfl⟩
  | case2 base w ws ih =>
    rw [membersFrom, setBits_zero, List.nil_append]
    exact ih
  | case3 base w ws hw =>
    rw [Cursor.remaining, membersFrom, membersFrom, setBits_eq_cons hw]
    exact ⟨rfl, rfl⟩

/-- A step gives the first member that is left, and leaves the others. -/
lemma Cursor.next_eq (c : Cursor) :
    c.next.1 = c.remaining.head? ∧ c.next.2.remaining = c.remaining.tail :=
  advance_eq c.base c.word c.rest

/-- Steps give the members that are left one after the other, and nothing from then on. -/
lemma Cursor.take_eq (n : Nat) (c : Cursor) :
    c.take n = (c.remaining.take n).map some ++ List.replicate (n - c.remaining.length) none := by
  induction n generalizing c with
  | zero =>
    rw [Cursor.take, List.take_zero, Nat.zero_sub]
    rfl
  | succ n ih =>
    obtain ⟨first, left⟩ := c.next_eq
    rw [Cursor.take, ih, first, left]
    cases c.remaining with
    | nil =>
      rw [List.tail_nil, List.take_nil, List.take_nil]
      rfl
    | cons i is =>
      rw [List.length_cons, Nat.add_sub_add_right]
      rfl

/-- Before the first step all members are left. -/
lemma remaining_cursor (b : Bitmap) : b.cursor.remaining = b.members := by
  rw [members_eq]
  unfold cursor
  split
  · next h =>
    rw [h]
    exact congrArg (· ++ []) (setBits_zero 0)
  · next h =>
    rw [h]
    rfl

/-- A walk over a set of a run gives its members, each once and in increasing order, and nothing
from then on; there are as many of them as the set counts. -/
theorem walk_lists_members (h : Made b) :
    ∃ is : List Nat, is.Pairwise (· < ·) ∧ (∀ i, i ∈ is ↔ b.contains i = true) ∧
      is.length = b.count ∧
      ∀ n, b.cursor.take n = (is.take n).map some ++ List.replicate (n - is.length) none := by
  refine ⟨b.members, pairwise_members b, fun i => h.tight.mem_members, length_members b,
    fun n => ?_⟩
  rw [Cursor.take_eq, remaining_cursor]

/-- A walk over a set in which members follow on clear words. -/
theorem walk_over_clear_words :
    Made ⟨[0, 5, 0, 1], 200⟩ ∧
    ∃ is : List Nat, is.Pairwise (· < ·) ∧
      (∀ i, i ∈ is ↔ (Bitmap.mk [0, 5, 0, 1] 200).contains i = true) ∧ is.length = 3 ∧
      ∀ n, (Bitmap.mk [0, 5, 0, 1] 200).cursor.take n =
        (is.take n).map some ++ List.replicate (n - is.length) none := by
  have made : Made ⟨[0, 5, 0, 1], 200⟩ :=
    ⟨[.empty 200, .insert 0 192, .insert 0 66, .insert 0 64], by decide⟩
  exact ⟨made, walk_lists_members made⟩

example : (Bitmap.mk [0, 5, 0, 1] 200).cursor.take 5 =
    [some 64, some 66, some 192, none, none] := by decide +kernel

/-! ## How far a cursor gets -/

/-- A step goes one word further than there are words at most. -/
lemma Cursor.base_advance_le (base : Nat) (w : Word) (ws : List Word) :
    (advance base w ws).2.base + 64 * (advance base w ws).2.rest.length ≤
      base + 64 * ws.length + 64 := by
  fun_induction advance base w ws with
  | case1 base => exact Nat.le_refl _
  | case2 base w ws ih =>
    rw [List.length_cons]
    omega
  | case3 base w ws hw => exact Nat.le_add_right _ 64

/-- Steps go one word further each at most, whether members are left or not. -/
lemma Cursor.base_drop_le (n : Nat) (c : Cursor) :
    (c.drop n).base + 64 * (c.drop n).rest.length ≤ c.base + 64 * c.rest.length + 64 * n := by
  induction n generalizing c with
  | zero => exact Nat.le_refl _
  | succ n ih =>
    have first := base_advance_le c.base c.word c.rest
    have others := ih c.next.2
    rw [Cursor.drop]
    rw [← Cursor.next] at first
    omega

/-- A walk looks for no more words than the bitmap has and the walk has steps. So a counter of
words, of a fixed width, holds the same number in every walk whose steps and words are together
fewer than the width has numbers. -/
theorem base_drop_cursor_le (b : Bitmap) (n : Nat) :
    (b.cursor.drop n).base ≤ 64 * (b.words.length + n) := by
  have bound := Cursor.base_drop_le n b.cursor
  unfold cursor at bound ⊢
  split at bound
  · next h =>
    rw [h]
    dsimp only [List.length_nil] at bound ⊢
    omega
  · next h =>
    rw [h, List.length_cons]
    dsimp only at bound ⊢
    omega

end Bitmap

end RuleFormula
