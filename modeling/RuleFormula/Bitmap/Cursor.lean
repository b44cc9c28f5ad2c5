import RuleFormula.Bitmap.Basic

/-!
# Walking over a bitmap

A cursor stands in a bitmap and gives its members one after the other, in increasing order. It holds
what is left of the word it stands in and the words after it. When the members are used up it gives
nothing, and goes on giving nothing; but with each such step it counts one more word that it looked
for.
-/

namespace RuleFormula

namespace Bitmap

/-- A place in a bitmap. -/
structure Cursor where
  /-- The index of the lowest bit of the current word, also where there are no more words. -/
  base : Nat
  /-- The members of the current word that are still to come. -/
  word : Word
  /-- The words after the current one. -/
  rest : List Word
deriving DecidableEq, Repr

namespace Cursor

/-- Walks on from a word to the first one that has a bit set; gives the index of its lowest set bit
and leaves the others. Where there is none, the cursor stands behind the last word, or a word
further on than it already did. -/
def advance (base : Nat) (word : Word) (rest : List Word) : Option Nat × Cursor :=
  if word = 0 then
    match rest with
    | [] => (none, ⟨base + 64, 0, []⟩)
    | next :: rest => advance (base + 64) next rest
  else
    let low := word.ctz.toNat
    (some (base + low), ⟨base, word &&& ~~~(BitVec.twoPow 64 low), rest⟩)

/-- The next member, if there is one, and the cursor after it. -/
def next (c : Cursor) : Option Nat × Cursor := advance c.base c.word c.rest

/-- The results of `n` successive steps. -/
def take : Nat → Cursor → List (Option Nat)
  | 0, _ => []
  | n + 1, c => c.next.1 :: take n c.next.2

/-- The cursor after `n` successive steps. -/
def drop : Nat → Cursor → Cursor
  | 0, c => c
  | n + 1, c => drop n c.next.2

end Cursor

/-- The cursor before the first member. -/
def cursor (b : Bitmap) : Cursor :=
  match b.words with
  | [] => ⟨0, 0, []⟩
  | w :: ws => ⟨0, w, ws⟩

end Bitmap

end RuleFormula
