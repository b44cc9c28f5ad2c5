import RuleFormula.Proofs.Bitmap.Runs

/-!
# The operations on the sets of a run

On the sets of a run the operations do to the members what their names say, for every size and
index (`operations_on_members`): `SetLaws` says it for the operations in place and the complement,
with the cases in which they fault and leave the set as it was.
-/

namespace RuleFormula

namespace Bitmap

variable {a b : Bitmap} {i j : Nat}

/-! ## The laws -/

/-- Two sets of one size are combined index by index. Sets of different sizes are not combined, and
the set is left as it was. -/
structure Combined (op : Bool → Bool → Bool) (a b : Bitmap) (after : Except Fault Unit × Bitmap) :
    Prop where
  fault_iff : after = (.error .sizesDiffer, a) ↔ a.size ≠ b.size
  answer : a.size = b.size → after.1 = .ok ()
  size_eq : after.2.size = a.size
  contains_eq : a.size = b.size → ∀ j, after.2.contains j = op (a.contains j) (b.contains j)

/-- What the operations do to the members of a set, the second operand being another set. -/
structure SetLaws (a b : Bitmap) : Prop where
  /-- An index below the size lies in one of the words, so no access goes past them. -/
  word_of_lt (i : Nat) : i < a.size → i / 64 < a.words.length
  /-- Exactly the indices past the size cannot be inserted, and the set is left as it was. -/
  insert_fault_iff (i : Nat) :
    a.insertHere i = (.error (.indexOutOfRange i a.size), a) ↔ a.size ≤ i
  /-- An index that is inserted joins the members, and the answer is whether it was none. -/
  insert (i : Nat) : i < a.size →
    (a.insertHere i).1 = .ok (!a.contains i) ∧ (a.insertHere i).2.size = a.size ∧
      ∀ j, (a.insertHere i).2.contains j = true ↔ j = i ∨ a.contains j = true
  /-- An index that is erased leaves the members, and the answer is whether it was one. -/
  erase (i : Nat) :
    (a.eraseHere i).1 = .ok (a.contains i) ∧ (a.eraseHere i).2.size = a.size ∧
      ∀ j, (a.eraseHere i).2.contains j = true ↔ j ≠ i ∧ a.contains j = true
  inter : Combined (· && ·) a b (a.interHere b)
  union : Combined (· || ·) a b (a.unionHere b)
  size_compl : a.compl.size = a.size
  compl (j : Nat) : a.compl.contains j = true ↔ j < a.size ∧ a.contains j = false

/-- What `Combines` says of a result, it says of the set that is combined in place. -/
lemma Combines.combined {op : Bool → Bool → Bool} {result : Except Fault Bitmap}
    (h : Combines op a b result) : Combined op a b (a.inPlace (result.map fun d => ((), d))) := by
  by_cases hs : a.size = b.size
  · obtain ⟨c, rfl, _, size, contains⟩ := h.1 hs
    exact ⟨⟨nofun, fun hne => absurd hs hne⟩, fun _ => rfl, size, fun _ => contains⟩
  · obtain rfl := h.2 hs
    exact ⟨⟨fun _ => hs, fun _ => rfl⟩, fun e => absurd e hs, rfl, fun e => absurd e hs⟩

/-- An insertion below the size adds one member and answers whether it is new. -/
lemma Tight.insertHere_of_lt (t : a.Tight) (hi : i < a.size) :
    (a.insertHere i).1 = .ok (!a.contains i) ∧ (a.insertHere i).2.size = a.size ∧
      ∀ j, (a.insertHere i).2.contains j = true ↔ j = i ∨ a.contains j = true := by
  obtain ⟨c, e, _, size, contains⟩ := insert_of_lt t hi
  have after : a.insertHere i = (.ok (!a.contains i), c) := by rw [insertHere_eq, e, inPlace]
  rw [after]
  refine ⟨rfl, size, fun j => ?_⟩
  rw [contains, Bool.or_eq_true, decide_eq_true_iff]

/-- An insertion past the size faults and leaves the set alone. -/
lemma insertHere_of_le (hi : a.size ≤ i) :
    a.insertHere i = (.error (.indexOutOfRange i a.size), a) := by
  rw [insertHere_eq, insert_of_le hi, inPlace]

/-- An insertion faults past the size and nowhere else. -/
lemma Tight.insertHere_fault_iff (t : a.Tight) (i : Nat) :
    a.insertHere i = (.error (.indexOutOfRange i a.size), a) ↔ a.size ≤ i := by
  refine ⟨fun e => ?_, insertHere_of_le⟩
  by_contra h
  have answer := (t.insertHere_of_lt (Nat.lt_of_not_le h)).1
  rw [e] at answer
  cases answer

/-- An erasure takes one member away and answers whether it was there. -/
lemma Tight.eraseHere (t : a.Tight) (i : Nat) :
    (a.eraseHere i).1 = .ok (a.contains i) ∧ (a.eraseHere i).2.size = a.size ∧
      ∀ j, (a.eraseHere i).2.contains j = true ↔ j ≠ i ∧ a.contains j = true := by
  rw [eraseHere_eq]
  refine ⟨congrArg Except.ok (fst_erase a i), size_erase a i, fun j => ?_⟩
  rw [inPlace, contains_erase t, Bool.and_eq_true, Bool.not_eq_true', decide_eq_false_iff_not]

/-- A complement has the members below the size that the set has not. -/
lemma Tight.contains_compl_iff (t : a.Tight) (j : Nat) :
    a.compl.contains j = true ↔ j < a.size ∧ a.contains j = false := by
  rw [contains_compl t, Bool.and_eq_true, decide_eq_true_iff, Bool.not_eq_true']

/-- Tight sets obey the laws. -/
lemma Tight.setLaws (s : a.Tight) (t : b.Tight) : SetLaws a b where
  word_of_lt _ hi := s.div_lt hi
  insert_fault_iff := s.insertHere_fault_iff
  insert _ hi := s.insertHere_of_lt hi
  erase := s.eraseHere
  inter := interHere_eq s t ▸ (combines_inter s t).combined
  union := unionHere_eq s t ▸ (combines_union s t).combined
  size_compl := size_compl a
  compl := s.contains_compl_iff

/-! ## Sets made of booleans and of words -/

/-- The booleans that are true and there give the members. -/
lemma contains_ofBools_iff (bits : List Bool) (j : Nat) :
    (ofBools bits).contains j = true ↔ bits[j]? = some true := by
  rw [contains_ofBools, List.getD_eq_getElem?_getD]
  cases bits[j]? <;> simp

/-- A bit is set when it is set in a word that is there. -/
lemma bitAt_eq_true_iff (words : List Word) (j : Nat) :
    bitAt words j = true ↔ ∃ w, words[j / 64]? = some w ∧ w.getLsbD (j % 64) = true := by
  rw [bitAt, List.getD_eq_getElem?_getD]
  cases words[j / 64]? <;> simp

/-- Words are refused exactly when they are too few or too many. -/
lemma ofWords_eq_error_iff (words : List Word) (n : Nat) :
    ofWords words n = .error (.wordCount n) ↔ words.length ≠ n ⌈/⌉ 64 := by
  rw [← wordCount_eq_ceilDiv, ofWords]
  split_ifs with h
  · exact ⟨nofun, fun hne => absurd h hne⟩
  · exact ⟨fun _ => h, fun _ => rfl⟩

/-- Words of the right number make a set, with the bits below the size for members. -/
lemma exists_ofWords {words : List Word} {n : Nat} (h : words.length = n ⌈/⌉ 64) :
    ∃ c, ofWords words n = .ok c ∧ c.size = n ∧ ∀ j, c.contains j = true ↔
      j < n ∧ ∃ w, words[j / 64]? = some w ∧ w.getLsbD (j % 64) = true := by
  have e : ofWords words n = .ok (trim ⟨words, n⟩) :=
    ofWords_eq_ok_iff.2 ⟨h.trans (wordCount_eq_ceilDiv n).symm, rfl⟩
  refine ⟨_, e, size_trim _, fun j => ?_⟩
  rw [contains_ofWords e, Bool.and_eq_true, decide_eq_true_iff, bitAt_eq_true_iff]

/-- The operations on the sets of a run are those on their members; so are the making of a set of
booleans, and of words, where there are as many words as the size needs. -/
theorem operations_on_members (ha : Made a) (hb : Made b) :
    SetLaws a b ∧
    (∀ bits : List Bool, (ofBools bits).size = bits.length ∧
      ∀ j, (ofBools bits).contains j = true ↔ bits[j]? = some true) ∧
    ∀ (words : List Word) (n : Nat),
      (ofWords words n = .error (.wordCount n) ↔ words.length ≠ n ⌈/⌉ 64) ∧
      (words.length = n ⌈/⌉ 64 → ∃ c, ofWords words n = .ok c ∧ c.size = n ∧
        ∀ j, c.contains j = true ↔
          j < n ∧ ∃ w, words[j / 64]? = some w ∧ w.getLsbD (j % 64) = true) := by
  refine ⟨ha.tight.setLaws hb.tight, fun bits => ⟨size_ofBools bits, contains_ofBools_iff bits⟩, ?_⟩
  exact fun words n => ⟨ofWords_eq_error_iff words n, exists_ofWords⟩

/-- The laws for two sets, made in runs in which words are refused and sizes do not fit. -/
theorem operations_on_members_of_two_words :
    Made ⟨[BitVec.allOnes 64, 1], 66⟩ ∧ Made ⟨[5, 2], 66⟩ ∧
    SetLaws ⟨[BitVec.allOnes 64, 1], 66⟩ ⟨[5, 2], 66⟩ := by
  have one : Made ⟨[BitVec.allOnes 64, 1], 66⟩ := ⟨[.full 66, .erase 0 65], by decide⟩
  have other : Made ⟨[5, 2], 66⟩ :=
    ⟨[.full 70, .ofWords [5, 6] 65, .ofWords [5, 6, 0] 66, .ofWords [5, 6] 66, .inter 2 0,
      .erase 2 64], by decide⟩
  exact ⟨one, other, (operations_on_members one other).1⟩

end Bitmap

end RuleFormula
