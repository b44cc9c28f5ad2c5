import RuleFormula.Bitmap.Basic

/-!
# What the operations do to the members of a bitmap

A bitmap is tight when it has as many words as its size needs and no bit set past its size. Every
operation gives a tight bitmap from tight ones, and for each there is one lemma that says which
indices are members of its result.
-/

namespace RuleFormula

namespace Bitmap

/-- As many words as the size needs, and no bit set past the size. -/
structure Tight (b : Bitmap) : Prop where
  length_words : b.words.length = wordCount b.size
  bitAt_of_le : ∀ i, b.size ≤ i → bitAt b.words i = false

/-- A member lies below the size, and its bit is set. -/
theorem contains_eq (b : Bitmap) (i : Nat) :
    b.contains i = (decide (i < b.size) && bitAt b.words i) := rfl

/-- No index past the size is a member. -/
theorem contains_of_le {b : Bitmap} {i : Nat} (h : b.size ≤ i) : b.contains i = false := by
  simp [contains_eq, Nat.not_lt.2 h]

/-- In a tight bitmap the members are the bits that are set. -/
theorem Tight.contains_eq_bitAt {b : Bitmap} (t : b.Tight) (i : Nat) :
    b.contains i = bitAt b.words i := by
  by_cases h : i < b.size
  · simp [contains_eq, h]
  · rw [contains_of_le (Nat.not_lt.1 h), t.bitAt_of_le i (Nat.not_lt.1 h)]

/-! ## Bits of words -/

/-- The bits of `lowBits n` that are set are the `n` lowest ones. -/
theorem getLsbD_lowBits (n i : Nat) :
    (lowBits n).getLsbD i = (decide (i < 64) && decide (i < n)) := by
  simp [lowBits, BitVec.getLsbD_ofNat, Nat.one_shiftLeft, Nat.testBit_two_pow_sub_one]

/-- Past the last word every bit counts as clear. -/
theorem bitAt_of_length_le {ws : List Word} {i : Nat} (h : ws.length ≤ i / 64) :
    bitAt ws i = false := by
  simp [bitAt, List.getD_eq_getElem?_getD, List.getElem?_eq_none h]

/-- Rewriting one word changes the bits in its place only. -/
theorem bitAt_modify (ws : List Word) (k : Nat) (f : Word → Word) (i : Nat) :
    bitAt (ws.modify k f) i =
      if i / 64 = k ∧ k < ws.length then (f (ws.getD (i / 64) 0)).getLsbD (i % 64)
      else bitAt ws i := by
  simp only [bitAt, List.getD_eq_getElem?_getD, List.getElem?_modify]
  by_cases hk : k = i / 64
  · subst hk
    by_cases h : i / 64 < ws.length <;> simp [h]
  · have hk' : ¬ i / 64 = k := fun e => hk e.symm
    simp [hk, hk']

/-- Bit `i % 64` of word `i / 64` is bit `j % 64` of word `j / 64` for no other `j`. -/
theorem getLsbD_twoPow_mod {i j : Nat} (h : j / 64 = i / 64) :
    (BitVec.twoPow 64 (i % 64)).getLsbD (j % 64) = decide (j = i) := by
  rw [BitVec.getLsbD_twoPow, ← Bool.decide_and]
  congr 1
  apply propext
  omega

/-- Setting a bit of a word that is there leaves the other bits alone. -/
theorem bitAt_setAt {ws : List Word} {i : Nat} (h : i / 64 < ws.length) (j : Nat) :
    bitAt (setAt ws i) j = (decide (j = i) || bitAt ws j) := by
  rw [setAt, bitAt_modify]
  by_cases hk : j / 64 = i / 64
  · simp only [hk, h, and_self, if_true, BitVec.getLsbD_or, getLsbD_twoPow_mod hk, bitAt]
    rw [Bool.or_comm]
  · have hj : ¬ j = i := fun e => hk (by rw [e])
    simp [hk, hj]

/-- Clearing a bit of a word that is there leaves the other bits alone. -/
theorem bitAt_clearAt {ws : List Word} {i : Nat} (h : i / 64 < ws.length) (j : Nat) :
    bitAt (clearAt ws i) j = (!decide (j = i) && bitAt ws j) := by
  rw [clearAt, bitAt_modify]
  by_cases hk : j / 64 = i / 64
  · have hj : j % 64 < 64 := Nat.mod_lt _ (by decide)
    simp only [hk, h, and_self, if_true, BitVec.getLsbD_and, BitVec.getLsbD_not,
      getLsbD_twoPow_mod hk, bitAt, hj, decide_true, Bool.true_and]
    rw [Bool.and_comm]
  · have hj : ¬ j = i := fun e => hk (by rw [e])
    simp [hk, hj]

/-- Words that are combined bit by bit combine all bits, also those past the last word. -/
theorem bitAt_zipWith {vs ws : List Word} (f : Word → Word → Word) (op : Bool → Bool → Bool)
    (hf : ∀ v w k, (f v w).getLsbD k = op (v.getLsbD k) (w.getLsbD k))
    (hop : op false false = false) (h : vs.length = ws.length) (i : Nat) :
    bitAt (List.zipWith f vs ws) i = op (bitAt vs i) (bitAt ws i) := by
  by_cases hi : i / 64 < vs.length
  · have hi' : i / 64 < ws.length := h ▸ hi
    simp only [bitAt, List.getD_eq_getElem?_getD, List.getElem?_zipWith]
    simp [hi, hi', hf]
  · have hi' : ws.length ≤ i / 64 := h ▸ Nat.not_lt.1 hi
    rw [bitAt_of_length_le (Nat.not_lt.1 hi), bitAt_of_length_le hi', hop]
    apply bitAt_of_length_le
    simp only [List.length_zipWith]
    omega

/-! ## Trimming -/

@[simp] theorem size_trim (b : Bitmap) : b.trim.size = b.size := by
  unfold trim
  split <;> rfl

/-- Trimming takes no word away. -/
theorem length_words_trim (b : Bitmap) : b.trim.words.length = b.words.length := by
  unfold trim
  split <;> simp

/-- Trimming keeps the bits below the size and clears the others. -/
theorem bitAt_trim {b : Bitmap} (h : b.words.length = wordCount b.size) (i : Nat) :
    bitAt b.trim.words i = (decide (i < b.size) && bitAt b.words i) := by
  rw [wordCount] at h
  unfold trim
  split
  next hz =>
    by_cases hi : i < b.size
    · simp [hi]
    · have hpast : b.words.length ≤ i / 64 := by omega
      simp [bitAt_of_length_le hpast]
  next hz =>
    rw [bitAt_modify]
    by_cases hk : i / 64 = b.words.length - 1
    · have hbelow : (lowBits (b.size % 64)).getLsbD (i % 64) = decide (i < b.size) := by
        rw [getLsbD_lowBits, ← Bool.decide_and]
        congr 1
        apply propext
        omega
      have hlast : b.words.length - 1 < b.words.length := by omega
      simp only [hk, hlast, and_self, if_true, BitVec.getLsbD_and, hbelow, bitAt]
      rw [Bool.and_comm]
    · by_cases hi : i < b.size
      · simp [hk, hi]
      · have hpast : b.words.length ≤ i / 64 := by omega
        simp [hk, bitAt_of_length_le hpast]

/-- A bitmap of as many words as its size needs is tight once it is trimmed. -/
theorem tight_trim {b : Bitmap} (h : b.words.length = wordCount b.size) : b.trim.Tight where
  length_words := by rw [length_words_trim, h, size_trim]
  bitAt_of_le i hi := by
    rw [size_trim] at hi
    simp [bitAt_trim h, Nat.not_lt.2 hi]

/-- Trimming changes no member, since members lie below the size. -/
theorem contains_trim {b : Bitmap} (h : b.words.length = wordCount b.size) (i : Nat) :
    b.trim.contains i = b.contains i := by
  rw [(tight_trim h).contains_eq_bitAt, bitAt_trim h, contains_eq]

/-! ## Making bitmaps -/

@[simp] theorem size_empty (n : Nat) : (empty n).size = n := rfl

@[simp] theorem size_full (n : Nat) : (full n).size = n := by simp [full]

/-- The words of the empty bitmap have no bit set. -/
theorem bitAt_words_empty (n i : Nat) : bitAt (empty n).words i = false := by
  by_cases h : i / 64 < wordCount n <;> simp [bitAt, empty, List.getD_eq_getElem?_getD, h]

/-- The empty bitmap is tight. -/
theorem tight_empty (n : Nat) : (empty n).Tight where
  length_words := by simp [empty]
  bitAt_of_le i _ := bitAt_words_empty n i

/-- The empty bitmap has no member. -/
@[simp] theorem contains_empty (n i : Nat) : (empty n).contains i = false := by
  rw [contains_eq, bitAt_words_empty, Bool.and_false]

/-- The full bitmap is tight: its last word was trimmed. -/
theorem tight_full (n : Nat) : (full n).Tight := tight_trim (by simp)

/-- Every index below the size is a member of the full bitmap. -/
@[simp] theorem contains_full (n i : Nat) : (full n).contains i = decide (i < n) := by
  rw [full, contains_trim (by simp), contains_eq]
  by_cases hi : i < n
  · have hw : i / 64 < wordCount n := by
      rw [wordCount]
      omega
    have hm : i % 64 < 64 := Nat.mod_lt _ (by decide)
    simp only [hi, bitAt, List.getD_eq_getElem?_getD, List.getElem?_replicate, hw, if_true,
      Option.getD_some, BitVec.getLsbD_allOnes, hm, decide_true, Bool.and_self]
  · simp [hi]

/-- A bitmap is made of words exactly when they are as many as its size needs. -/
theorem ofWords_eq_ok_iff {words : List Word} {n : Nat} {b : Bitmap} :
    ofWords words n = .ok b ↔ words.length = wordCount n ∧ b = trim ⟨words, n⟩ := by
  unfold ofWords
  split
  next h => simp [h, eq_comm]
  next h => simp [h]

/-- A bitmap that is made of words is tight, whatever bits they have past its size. -/
theorem tight_ofWords {words : List Word} {n : Nat} {b : Bitmap} (h : ofWords words n = .ok b) :
    b.Tight := by
  obtain ⟨hlen, rfl⟩ := ofWords_eq_ok_iff.1 h
  exact tight_trim hlen

/-- The members of a bitmap that is made of words are the bits set below its size. -/
theorem contains_ofWords {words : List Word} {n : Nat} {b : Bitmap} (h : ofWords words n = .ok b)
    (i : Nat) : b.contains i = (decide (i < n) && bitAt words i) := by
  obtain ⟨hlen, rfl⟩ := ofWords_eq_ok_iff.1 h
  rw [contains_trim hlen]
  rfl

@[simp] theorem size_push (b : Bitmap) (bit : Bool) : (b.push bit).size = b.size + 1 := rfl

/-- With room for one more index there are as many words as the next size needs. -/
theorem length_grown {b : Bitmap} (t : b.Tight) : b.grown.length = wordCount (b.size + 1) := by
  have hlen := t.length_words
  rw [wordCount] at hlen ⊢
  unfold grown
  split <;> simp only [List.length_append, List.length_singleton, hlen] <;> omega

/-- The room for one more index is clear. -/
theorem bitAt_grown (b : Bitmap) (i : Nat) : bitAt b.grown i = bitAt b.words i := by
  unfold grown
  split
  · simp only [bitAt, List.getD_eq_getElem?_getD]
    by_cases hi : i / 64 < b.words.length
    · rw [List.getElem?_append_left hi]
    · rw [List.getElem?_append_right (Nat.not_lt.1 hi), List.getElem?_eq_none (Nat.not_lt.1 hi)]
      cases i / 64 - b.words.length <;> simp
  · rfl

/-- Adding an index at the end changes no other bit. -/
theorem bitAt_words_push {b : Bitmap} (t : b.Tight) (bit : Bool) (i : Nat) :
    bitAt (b.push bit).words i = if i = b.size then bit else bitAt b.words i := by
  cases bit with
  | false =>
    simp only [push, Bool.false_eq_true, if_false, bitAt_grown]
    by_cases hi : i = b.size
    · simp [hi, t.bitAt_of_le b.size (Nat.le_refl _)]
    · simp [hi]
  | true =>
    have hlast : b.size / 64 < b.grown.length := by
      rw [length_grown t, wordCount]
      omega
    simp only [push, if_true, bitAt_setAt hlast, bitAt_grown]
    by_cases hi : i = b.size <;> simp [hi]

/-- One more index at the end keeps a bitmap tight. -/
theorem tight_push {b : Bitmap} (t : b.Tight) (bit : Bool) : (b.push bit).Tight where
  length_words := by cases bit <;> simp [push, setAt, length_grown t]
  bitAt_of_le i hi := by
    rw [size_push] at hi
    have hne : ¬ i = b.size := by omega
    simp [bitAt_words_push t, hne, t.bitAt_of_le i (by omega)]

/-- Adding booleans to a bitmap keeps what it holds below its size and puts them after it. -/
theorem foldl_push {b : Bitmap} (t : b.Tight) (bits : List Bool) :
    (bits.foldl push b).Tight ∧ (bits.foldl push b).size = b.size + bits.length ∧
      ∀ i, bitAt (bits.foldl push b).words i =
        if i < b.size then bitAt b.words i else bits.getD (i - b.size) false := by
  induction bits generalizing b with
  | nil =>
    refine ⟨t, rfl, fun i => ?_⟩
    by_cases hi : i < b.size
    · simp [hi]
    · simp [hi, t.bitAt_of_le i (Nat.not_lt.1 hi)]
  | cons bit bits ih =>
    obtain ⟨t', hsize, hbits⟩ := ih (tight_push t bit)
    have hlength : b.size + 1 + bits.length = b.size + (bit :: bits).length := by
      rw [List.length_cons]
      omega
    refine ⟨t', by rw [List.foldl_cons, hsize, size_push, hlength], fun i => ?_⟩
    rw [List.foldl_cons, hbits, size_push, bitAt_words_push t]
    rcases Nat.lt_trichotomy i b.size with hi | hi | hi
    · have h1 : i < b.size + 1 := by omega
      have h2 : ¬ i = b.size := by omega
      simp [hi, h1, h2]
    · simp [hi]
    · have h1 : ¬ i < b.size + 1 := by omega
      have h2 : ¬ i < b.size := by omega
      have h3 : i - b.size = (i - (b.size + 1)) + 1 := by omega
      simp only [h1, h2, if_false, h3, List.getD_cons_succ]

/-- A bitmap of booleans is tight. -/
theorem tight_ofBools (bits : List Bool) : (ofBools bits).Tight :=
  (foldl_push (tight_empty 0) bits).1

/-- A bitmap of booleans has an index for each of them. -/
@[simp] theorem size_ofBools (bits : List Bool) : (ofBools bits).size = bits.length := by
  have := (foldl_push (tight_empty 0) bits).2.1
  simpa [ofBools] using this

/-- The members of a bitmap of booleans are the places of those that are true. -/
@[simp] theorem contains_ofBools (bits : List Bool) (i : Nat) :
    (ofBools bits).contains i = bits.getD i false := by
  rw [(tight_ofBools bits).contains_eq_bitAt]
  have := (foldl_push (tight_empty 0) bits).2.2 i
  simpa [ofBools] using this

/-! ## Changing bitmaps -/

/-- An index below the size lies in a word that is there. -/
theorem Tight.div_lt {b : Bitmap} (t : b.Tight) {i : Nat} (h : i < b.size) :
    i / 64 < b.words.length := by
  rw [t.length_words, wordCount]
  omega

/-- Below the size an index becomes a member, and the others stay as they are. -/
theorem insert_of_lt {b : Bitmap} (t : b.Tight) {i : Nat} (h : i < b.size) :
    ∃ b', b.insert i = .ok (!b.contains i, b') ∧ b'.Tight ∧ b'.size = b.size ∧
      ∀ j, b'.contains j = (decide (j = i) || b.contains j) := by
  have hbits := bitAt_setAt (t.div_lt h)
  have t' : (Bitmap.mk (setAt b.words i) b.size).Tight :=
    { length_words := by simp [setAt, t.length_words]
      bitAt_of_le := fun j hj => by
        have hne : ¬ j = i := fun e => absurd (e ▸ h) (Nat.not_lt.2 hj)
        simp [hbits, hne, t.bitAt_of_le j hj] }
  refine ⟨_, by rw [insert, if_pos h], t', rfl, fun j => ?_⟩
  rw [t'.contains_eq_bitAt, hbits, t.contains_eq_bitAt]

/-- An index past the size cannot be inserted. -/
theorem insert_of_le {b : Bitmap} {i : Nat} (h : b.size ≤ i) :
    b.insert i = .error (.indexOutOfRange i b.size) := by
  rw [insert, if_neg (Nat.not_lt.2 h)]

/-- An erasure does not change the size. -/
@[simp] theorem size_erase (b : Bitmap) (i : Nat) : (b.erase i).2.size = b.size := by
  unfold erase
  split <;> rfl

/-- The answer of an erasure is whether the index was a member. -/
theorem fst_erase (b : Bitmap) (i : Nat) : (b.erase i).1 = b.contains i := by
  unfold erase
  split
  next => rfl
  next h => simp [contains_eq, h]

/-- An erasure clears one bit, which is already clear where the index lies past the size. -/
theorem bitAt_words_erase {b : Bitmap} (t : b.Tight) (i j : Nat) :
    bitAt (b.erase i).2.words j = (!decide (j = i) && bitAt b.words j) := by
  unfold erase
  split
  next h => exact bitAt_clearAt (t.div_lt h) j
  next h =>
    by_cases hj : j = i
    · simp [hj, t.bitAt_of_le i (Nat.not_lt.1 h)]
    · simp [hj]

/-- An erasure keeps a bitmap tight. -/
theorem tight_erase {b : Bitmap} (t : b.Tight) (i : Nat) : (b.erase i).2.Tight where
  length_words := by
    rw [size_erase]
    unfold erase
    split <;> simp [clearAt, t.length_words]
  bitAt_of_le j hj := by
    rw [size_erase] at hj
    rw [bitAt_words_erase t, t.bitAt_of_le j hj, Bool.and_false]

/-- The index that is erased is no member afterwards, and the others stay as they were. -/
theorem contains_erase {b : Bitmap} (t : b.Tight) (i j : Nat) :
    (b.erase i).2.contains j = (!decide (j = i) && b.contains j) := by
  rw [(tight_erase t i).contains_eq_bitAt, bitAt_words_erase t, t.contains_eq_bitAt]

/-- Two tight bitmaps of one size combined word by word are tight, if two clear bits give a clear
one. -/
theorem tight_zipWith {a b : Bitmap} (s : a.Tight) (t : b.Tight) (f : Word → Word → Word)
    (op : Bool → Bool → Bool) (hf : ∀ v w k, (f v w).getLsbD k = op (v.getLsbD k) (w.getLsbD k))
    (hop : op false false = false) (h : a.size = b.size) :
    (Bitmap.mk (List.zipWith f a.words b.words) a.size).Tight where
  length_words := by simp [s.length_words, t.length_words, h]
  bitAt_of_le i hi := by
    rw [bitAt_zipWith f op hf hop (by rw [s.length_words, t.length_words, h]),
      s.bitAt_of_le i hi, t.bitAt_of_le i (h ▸ hi), hop]

/-- Two tight bitmaps of one size have an intersection, tight and of the same size. -/
theorem inter_of_size_eq {a b : Bitmap} (s : a.Tight) (t : b.Tight) (h : a.size = b.size) :
    ∃ c, a.inter b = .ok c ∧ c.Tight ∧ c.size = a.size ∧
      ∀ i, c.contains i = (a.contains i && b.contains i) := by
  have hlen : a.words.length = b.words.length := by rw [s.length_words, t.length_words, h]
  have tc := tight_zipWith s t (· &&& ·) (· && ·) (fun _ _ _ => BitVec.getLsbD_and) rfl h
  refine ⟨_, by rw [inter, if_pos h], tc, rfl, fun i => ?_⟩
  rw [tc.contains_eq_bitAt, s.contains_eq_bitAt, t.contains_eq_bitAt]
  exact bitAt_zipWith _ (· && ·) (fun _ _ _ => BitVec.getLsbD_and) rfl hlen i

/-- Two tight bitmaps of one size have a union, tight and of the same size. -/
theorem union_of_size_eq {a b : Bitmap} (s : a.Tight) (t : b.Tight) (h : a.size = b.size) :
    ∃ c, a.union b = .ok c ∧ c.Tight ∧ c.size = a.size ∧
      ∀ i, c.contains i = (a.contains i || b.contains i) := by
  have hlen : a.words.length = b.words.length := by rw [s.length_words, t.length_words, h]
  have tc := tight_zipWith s t (· ||| ·) (· || ·) (fun _ _ _ => BitVec.getLsbD_or) rfl h
  refine ⟨_, by rw [union, if_pos h], tc, rfl, fun i => ?_⟩
  rw [tc.contains_eq_bitAt, s.contains_eq_bitAt, t.contains_eq_bitAt]
  exact bitAt_zipWith _ (· || ·) (fun _ _ _ => BitVec.getLsbD_or) rfl hlen i

/-- There is no intersection of bitmaps of different sizes. -/
theorem inter_of_size_ne {a b : Bitmap} (h : a.size ≠ b.size) :
    a.inter b = .error .sizesDiffer := by
  rw [inter, if_neg h]

/-- There is no union of bitmaps of different sizes. -/
theorem union_of_size_ne {a b : Bitmap} (h : a.size ≠ b.size) :
    a.union b = .error .sizesDiffer := by
  rw [union, if_neg h]

@[simp] theorem size_compl (b : Bitmap) : b.compl.size = b.size := by simp [compl]

/-- A complement is tight: its last word was trimmed. -/
theorem tight_compl {b : Bitmap} (t : b.Tight) : b.compl.Tight :=
  tight_trim (by simp [t.length_words])

/-- The members of a complement are the indices below the size that were none. -/
theorem contains_compl {b : Bitmap} (t : b.Tight) (i : Nat) :
    b.compl.contains i = (decide (i < b.size) && !b.contains i) := by
  rw [compl, contains_trim (by simp [t.length_words]), contains_eq, t.contains_eq_bitAt]
  by_cases hi : i < b.size
  · have hm : i % 64 < 64 := Nat.mod_lt _ (by decide)
    simp [hi, bitAt, List.getD_eq_getElem?_getD, t.div_lt hi, hm]
  · simp [hi]

end Bitmap

end RuleFormula
