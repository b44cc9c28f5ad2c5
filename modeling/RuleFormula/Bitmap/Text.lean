import RuleFormula.Bitmap.Basic

/-!
# Bitmaps in print

Two written forms. `rangeText` lists the members in increasing order, each run of consecutive ones
as `lo-hi`; `debugText` shows the words as decimal numbers and the size.
-/

namespace RuleFormula

namespace Bitmap

/-- The indices of the bits set in a word whose lowest bit has the index `base`. -/
def setBits (base : Nat) (w : Word) : List Nat :=
  if w = 0 then [] else ((List.range 64).filter w.getLsbD).map (base + ·)

/-- The members in increasing order. -/
def members (b : Bitmap) : List Nat :=
  (b.words.zipIdx.map fun (w, k) => setBits (64 * k) w).flatten

/-- The members that a word has are its bits that are set, counted from `base`. -/
theorem mem_setBits {base i : Nat} {w : Word} :
    i ∈ setBits base w ↔ ∃ j, j < 64 ∧ w.getLsbD j = true ∧ base + j = i := by
  unfold setBits
  split
  · rename_i h
    subst h
    simp
  · simp [and_assoc]

/-- The members are the bits that are set. -/
theorem mem_members {b : Bitmap} {i : Nat} : i ∈ b.members ↔ bitAt b.words i = true := by
  simp only [members, List.mem_flatten, List.mem_map, Prod.exists, List.mem_zipIdx_iff_getElem?,
    bitAt, List.getD_eq_getElem?_getD]
  constructor
  · rintro ⟨_, ⟨w, k, hw, rfl⟩, hi⟩
    obtain ⟨j, hj, hb, rfl⟩ := mem_setBits.1 hi
    have hk : (64 * k + j) / 64 = k := by omega
    have hm : (64 * k + j) % 64 = j := by omega
    simp [hk, hm, hw, hb]
  · intro h
    cases hw : b.words[i / 64]? with
    | none => simp [hw] at h
    | some w =>
      rw [hw, Option.getD_some] at h
      exact ⟨_, ⟨w, i / 64, hw, rfl⟩,
        mem_setBits.2 ⟨i % 64, Nat.mod_lt i (by decide), h, Nat.div_add_mod i 64⟩⟩

/-- Puts the next number of an increasing list to the runs of those before it, the last run first.
-/
def addToRuns (before : List (Nat × Nat)) (i : Nat) : List (Nat × Nat) :=
  match before with
  | [] => [(i, i)]
  | (lo, hi) :: rest => if i = hi + 1 then (lo, i) :: rest else (i, i) :: (lo, hi) :: rest

/-- Gathers an increasing list into maximal runs of consecutive numbers, each with its first and
last. -/
def runs (is : List Nat) : List (Nat × Nat) := (is.foldl addToRuns []).reverse

/-- A run of one number is that number, a longer one its first and last joined by a dash. -/
def runText (run : Nat × Nat) : String :=
  if run.1 = run.2 then toString run.1 else s!"{run.1}-{run.2}"

/-- The members as runs joined by commas. -/
def rangeText (b : Bitmap) : String := ",".intercalate ((runs b.members).map runText)

/-- The words and the size, field by field. -/
def debugText (b : Bitmap) : String :=
  let words := ", ".intercalate (b.words.map fun w => toString w.toNat)
  "BitSet \x7b words: [" ++ words ++ "], size: " ++ toString b.size ++ " \x7d"

end Bitmap

end RuleFormula
