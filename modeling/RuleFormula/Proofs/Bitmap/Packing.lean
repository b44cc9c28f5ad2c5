import Mathlib.Data.List.GetD
import Mathlib.Tactic.Lemma
import RuleFormula.Bitmap.Lemmas
import RuleFormula.Bitmap.Packed

/-!
# Bitmaps of tests

Testing the items of a list in chunks, one word a chunk, gives the bitmap of the results that the
tests have one by one (`ofTests_eq`). Where a test ends by a fault both end by the fault of the
first such test.
-/

namespace RuleFormula

namespace Bitmap

/-- Tight bitmaps of one size with the same members are equal. -/
theorem Tight.ext {a b : Bitmap} (s : a.Tight) (t : b.Tight) (hsize : a.size = b.size)
    (hmem : ∀ i, a.contains i = b.contains i) : a = b := by
  have hlen : a.words.length = b.words.length := by
    rw [s.length_words, t.length_words, hsize]
  have hbit (i : Nat) : bitAt a.words i = bitAt b.words i := by
    rw [← s.contains_eq_bitAt, ← t.contains_eq_bitAt]
    exact hmem i
  have hwords : a.words = b.words := by
    refine List.ext_getElem hlen (fun k ha hb => BitVec.eq_of_getLsbD_eq (fun j hj => ?_))
    have h := hbit (64 * k + j)
    have hdiv : (64 * k + j) / 64 = k := by omega
    have hmod : (64 * k + j) % 64 = j := by omega
    simpa only [bitAt, hdiv, hmod, List.getD_eq_getElem _ _ ha, List.getD_eq_getElem _ _ hb] using h
  cases a with
  | mk words size =>
    obtain rfl : words = b.words := hwords
    obtain rfl : size = b.size := hsize
    rfl

/-! ## Chunks -/

variable {α β : Type} {n : Nat}

/-- No items make no chunk. -/
lemma chunks_nil : chunks n ([] : List α) = [] := by
  rw [chunks]

/-- Items for a whole chunk make the first chunk. -/
lemma chunks_append {xs : List α} (h : xs.length = n + 1) (ys : List α) :
    chunks n (xs ++ ys) = xs :: chunks n ys := by
  cases xs with
  | nil => cases h
  | cons x xs =>
    obtain rfl : xs.length = n := Nat.succ.inj h
    rw [List.cons_append, chunks, List.take_left, List.drop_left]

/-- Items that fit into one chunk make one. -/
lemma chunks_of_length_le {xs : List α} (hne : xs ≠ []) (h : xs.length ≤ n + 1) :
    chunks n xs = [xs] := by
  cases xs with
  | nil => exact absurd rfl hne
  | cons x xs =>
    have h : xs.length ≤ n := Nat.le_of_succ_le_succ h
    rw [chunks, List.take_of_length_le h, List.drop_eq_nil_of_le h, chunks_nil]

/-- What holds of the empty list and of each list that fits into one chunk, and holds with a full
chunk in front where it holds of the rest, holds of every list. -/
@[elab_as_elim]
lemma chunk_induction {motive : List α → Prop} (n : Nat) (nil : motive [])
    (last : ∀ xs, xs ≠ [] → xs.length ≤ n + 1 → motive xs)
    (full : ∀ xs ys, xs.length = n + 1 → motive ys → motive (xs ++ ys)) (xs : List α) :
    motive xs := by
  induction xs using chunks.induct n with
  | case1 => exact nil
  | case2 x xs ih =>
    obtain h | h := Nat.lt_or_ge n xs.length
    · have first : (x :: xs.take n).length = n + 1 := by
        rw [List.length_cons, List.length_take, Nat.min_eq_left (Nat.le_of_lt h)]
      have whole := full (x :: xs.take n) (xs.drop n) first ih
      rwa [List.cons_append, List.take_append_drop] at whole
    · exact last (x :: xs) (List.cons_ne_nil x xs) (Nat.succ_le_succ h)

/-- There are as many chunks as the items fill or begin. -/
lemma length_chunks (n : Nat) (xs : List α) :
    (chunks n xs).length = (xs.length + n) / (n + 1) := by
  fun_induction chunks n xs with
  | case1 =>
    rw [List.length_nil, List.length_nil, Nat.zero_add]
    exact (Nat.div_eq_of_lt (Nat.lt_succ_self n)).symm
  | case2 x xs ih =>
    rw [List.length_cons, ih, List.length_drop, List.length_cons]
    by_cases h : n ≤ xs.length
    · have e : xs.length + 1 + n = xs.length - n + n + (n + 1) := by omega
      rw [e, Nat.add_div_right _ (Nat.succ_pos n)]
    · have e : xs.length - n + n = n := by omega
      have e' : xs.length + 1 + n = xs.length + (n + 1) := by omega
      rw [e, e', Nat.add_div_right _ (Nat.succ_pos n), Nat.div_eq_of_lt (Nat.lt_succ_self n),
        Nat.div_eq_of_lt (by omega)]

/-! ## Words of booleans -/

/-- Each boolean gives the bit in its place. -/
lemma getLsbD_wordOf (bits : List Bool) {j : Nat} (hj : j < 64) :
    (wordOf bits).getLsbD j = bits.getD j false := by
  induction bits generalizing j with
  | nil => simp [wordOf]
  | cons bit bits ih =>
    have step : wordOf (bit :: bits) = wordOf bits <<< 1 ||| (if bit then 1 else 0) := rfl
    rw [step, BitVec.getLsbD_or, BitVec.getLsbD_shiftLeft]
    cases j with
    | zero => cases bit <;> simp
    | succ j =>
      have low : (if bit then 1 else 0 : Word).getLsbD (j + 1) = false := by
        cases bit <;> simp
      rw [low, Nat.add_sub_cancel, ih (Nat.lt_of_succ_lt hj), List.getD_cons_succ]
      simp [hj]

/-- The words of booleans, one for each chunk. -/
def wordsOf (bits : List Bool) : List Word := (chunks 63 bits).map wordOf

/-- No booleans make no word. -/
lemma wordsOf_nil : wordsOf [] = [] := by
  rw [wordsOf, chunks_nil, List.map_nil]

/-- Booleans that fit into one word make one. -/
lemma wordsOf_of_length_le {bits : List Bool} (hne : bits ≠ []) (h : bits.length ≤ 64) :
    wordsOf bits = [wordOf bits] := by
  rw [wordsOf, chunks_of_length_le hne h, List.map_singleton]

/-- Booleans for a whole word make the first word. -/
lemma wordsOf_append {bits : List Bool} (h : bits.length = 64) (more : List Bool) :
    wordsOf (bits ++ more) = wordOf bits :: wordsOf more := by
  rw [wordsOf, chunks_append h, List.map_cons, wordsOf]

/-- Booleans make as many words as a bitmap of their number has. -/
lemma length_wordsOf (bits : List Bool) : (wordsOf bits).length = wordCount bits.length := by
  rw [wordsOf, List.length_map, length_chunks]
  rfl

/-- Each boolean gives the bit at its index, through all words. -/
lemma bitAt_wordsOf (bits : List Bool) (i : Nat) : bitAt (wordsOf bits) i = bits.getD i false := by
  have hm : i % 64 < 64 := Nat.mod_lt _ (by decide)
  -- chunk by chunk: the index lies in the first word or in those after it
  induction bits using chunk_induction 63 generalizing i with
  | nil => rw [wordsOf_nil, bitAt_of_length_le (Nat.zero_le _), List.getD_nil]
  | last bits hne hlen =>
    rw [wordsOf_of_length_le hne hlen]
    by_cases hi : i < 64
    · have hdiv : i / 64 = 0 := Nat.div_eq_of_lt hi
      rw [bitAt, hdiv, List.getD_cons_zero, getLsbD_wordOf _ hm, Nat.mod_eq_of_lt hi]
    · rw [bitAt_of_length_le (by rw [List.length_singleton]; omega), List.getD_eq_default]
      omega
  | full bits more hlen ih =>
    rw [wordsOf_append hlen]
    by_cases hi : i < 64
    · have hdiv : i / 64 = 0 := Nat.div_eq_of_lt hi
      rw [bitAt, hdiv, List.getD_cons_zero, getLsbD_wordOf _ hm, Nat.mod_eq_of_lt hi,
        List.getD_append _ _ _ _ (hlen ▸ hi)]
    · have hdiv : i / 64 = (i - 64) / 64 + 1 := by omega
      have hmod : i % 64 = (i - 64) % 64 := by omega
      have hrest := ih (i - 64) (hmod ▸ hm)
      rw [bitAt] at hrest
      rw [bitAt, hdiv, hmod, List.getD_cons_succ, hrest,
        List.getD_append_right _ _ _ _ (hlen ▸ Nat.not_lt.1 hi), hlen]

/-- The words of booleans make the bitmap of the booleans. -/
lemma ofWords_wordsOf (bits : List Bool) :
    ofWords (wordsOf bits) bits.length = .ok (ofBools bits) := by
  have hlen := length_wordsOf bits
  have h : ofWords (wordsOf bits) bits.length = .ok (trim ⟨wordsOf bits, bits.length⟩) :=
    if_pos hlen
  rw [h]
  refine congrArg _ (Tight.ext (tight_trim hlen) (tight_ofBools bits) ?_ (fun i => ?_))
  · rw [size_trim, size_ofBools]
  · rw [contains_ofWords h, bitAt_wordsOf, contains_ofBools]
    by_cases hi : i < bits.length
    · rw [decide_eq_true hi, Bool.true_and]
    · rw [decide_eq_false hi, Bool.false_and, List.getD_eq_default _ _ (Nat.not_lt.1 hi)]

/-! ## Tests -/

variable {ε : Type}

/-- Testing a list gives results exactly when its head and its tail do. -/
lemma mapM_cons_eq_ok_iff {test : α → Except ε β} {x : α} {items : List α} {results : List β} :
    (x :: items).mapM test = .ok results ↔
      ∃ b rest, test x = .ok b ∧ items.mapM test = .ok rest ∧ results = b :: rest := by
  rw [List.mapM_cons]
  cases test x with
  | error e => exact ⟨nofun, nofun⟩
  | ok b =>
    cases items.mapM test with
    | error e => exact ⟨nofun, nofun⟩
    | ok rest =>
      constructor
      · rintro ⟨⟩
        exact ⟨b, rest, rfl, rfl, rfl⟩
      · rintro ⟨_, _, ⟨⟩, ⟨⟩, rfl⟩
        rfl

/-- Where no call faults, there is a result for each item. -/
lemma length_of_mapM_eq_ok {test : α → Except ε β} {items : List α} {results : List β}
    (h : items.mapM test = .ok results) : results.length = items.length := by
  induction items generalizing results with
  | nil =>
    cases h
    rfl
  | cons x items ih =>
    obtain ⟨b, rest, _, hrest, rfl⟩ := mapM_cons_eq_ok_iff.1 h
    rw [List.length_cons, List.length_cons, ih hrest]

/-- Each result is that of the item at its position, where no test fails. -/
lemma test_of_mapM_eq_ok {test : α → Except ε β} {items : List α} {results : List β}
    (h : items.mapM test = .ok results) (i : Nat) (hi : i < items.length) (b : β) :
    test items[i] = .ok (results.getD i b) := by
  induction items generalizing results i with
  | nil => exact absurd hi (Nat.not_lt_zero i)
  | cons x items ih =>
    obtain ⟨c, rest, hx, hrest, rfl⟩ := mapM_cons_eq_ok_iff.1 h
    cases i with
    | zero => exact hx
    | succ i => exact ih hrest i (Nat.lt_of_succ_lt_succ hi)

/-- An error of a list of tests is the error of the test of one item. -/
lemma exists_of_mapM_eq_error {test : α → Except ε β} {items : List α} {e : ε}
    (h : items.mapM test = .error e) : ∃ x ∈ items, test x = .error e := by
  induction items with
  | nil => cases h
  | cons x items ih =>
    rw [List.mapM_cons] at h
    cases hx : test x with
    | error e' =>
      rw [hx] at h
      cases h
      exact ⟨x, List.mem_cons_self, hx⟩
    | ok b =>
      cases hrest : items.mapM test with
      | error e' =>
        rw [hx, hrest] at h
        cases h
        obtain ⟨y, hy, hf⟩ := ih hrest
        exact ⟨y, List.mem_cons_of_mem x hy, hf⟩
      | ok rest =>
        rw [hx, hrest] at h
        cases h

/-- Testing items chunk by chunk tests them one by one, and packs the results. -/
lemma packWords_eq (test : α → Except ε Bool) (items : List α) :
    packWords test items = (items.mapM test).map wordsOf := by
  induction items using chunk_induction 63 with
  | nil =>
    rw [packWords, chunks_nil, List.mapM_nil, List.mapM_nil]
    exact congrArg Except.ok wordsOf_nil.symm
  | last items hne hlen =>
    rw [packWords, chunks_of_length_le hne hlen, List.mapM_cons, List.mapM_nil]
    cases hr : items.mapM test with
    | error e => rfl
    | ok bits =>
      have hbits := length_of_mapM_eq_ok hr
      have some : bits ≠ [] := by
        rintro rfl
        exact hne (List.length_eq_zero_iff.1 hbits.symm)
      rw [Except.map, wordsOf_of_length_le some (hbits ▸ hlen)]
      rfl
  | full items more hlen ih =>
    rw [packWords] at ih
    rw [packWords, chunks_append hlen, List.mapM_cons, List.mapM_append, ih]
    cases hfirst : items.mapM test with
    | error e => rfl
    | ok first =>
      cases more.mapM test with
      | error e => rfl
      | ok rest =>
        have hfull := (length_of_mapM_eq_ok hfirst).trans hlen
        exact congrArg Except.ok (wordsOf_append hfull rest).symm

/-- Testing chunk by chunk gives the bitmap of the results one by one, or the first fault. -/
theorem ofTests_eq (test : α → Except Fault Bool) (items : List α) :
    ofTests test items = (items.mapM test).map ofBools := by
  rw [ofTests, packWords_eq]
  cases h : items.mapM test with
  | error fault => rfl
  | ok bits =>
    show MonadExcept.ofExcept (ofWords (wordsOf bits) items.length) = Except.ok _
    rw [← length_of_mapM_eq_ok h, ofWords_wordsOf]
    rfl

end Bitmap

end RuleFormula
