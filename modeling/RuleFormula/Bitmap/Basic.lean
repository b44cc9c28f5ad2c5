import RuleFormula.Fault

/-!
# Bitmaps

A bitmap over `0..size` packed into 64-bit words: bit `i` is bit `i % 64` of word `i / 64`. The view
of a bitmap is `contains`, and every operation says what it does to that view. Bits past the size
are kept clear, so that two bitmaps with the same size and members are equal as values.
-/

namespace RuleFormula

/-- A word holds 64 consecutive bits, the lowest index in the lowest bit. -/
abbrev Word := BitVec 64

/-- A set of indices below `size`, packed into words. -/
structure Bitmap where
  /-- The words, from the lowest indices to the highest. -/
  words : List Word
  /-- The number of addressable bits. -/
  size : Nat
deriving DecidableEq, Hashable, Repr

namespace Bitmap

/-- The number of words that hold `size` bits. -/
def wordCount (size : Nat) : Nat := (size + 63) / 64

/-- The word whose lowest `n` bits are set. -/
def lowBits (n : Nat) : Word := BitVec.ofNat 64 (1 <<< n - 1)

/-- The bit at an index of a list of words; it is clear past the last word. -/
def bitAt (words : List Word) (i : Nat) : Bool := (words.getD (i / 64) 0).getLsbD (i % 64)

/-- Sets the bit at an index. -/
def setAt (words : List Word) (i : Nat) : List Word :=
  words.modify (i / 64) (· ||| BitVec.twoPow 64 (i % 64))

/-- Clears the bit at an index. -/
def clearAt (words : List Word) (i : Nat) : List Word :=
  words.modify (i / 64) (· &&& ~~~(BitVec.twoPow 64 (i % 64)))

/-- Clears the bits of the last word that lie past the size. -/
def trim (b : Bitmap) : Bitmap :=
  if b.size % 64 = 0 then b
  else { b with words := b.words.modify (b.words.length - 1) (· &&& lowBits (b.size % 64)) }

/-- The bitmap over `0..size` with no member. -/
def empty (size : Nat) : Bitmap := ⟨List.replicate (wordCount size) 0, size⟩

/-- The bitmap over `0..size` with every member. -/
def full (size : Nat) : Bitmap := trim ⟨List.replicate (wordCount size) (BitVec.allOnes 64), size⟩

/-- The bitmap made of given words, which must be as many as the size needs. -/
def ofWords (words : List Word) (size : Nat) : Except Fault Bitmap :=
  if words.length = wordCount size then .ok (trim ⟨words, size⟩) else .error (.wordCount size)

/-- The words with room for one more index. -/
def grown (b : Bitmap) : List Word := if b.size % 64 = 0 then b.words ++ [0] else b.words

/-- Adds one more index at the end, a member or not. -/
def push (b : Bitmap) (bit : Bool) : Bitmap :=
  ⟨if bit then setAt b.grown b.size else b.grown, b.size + 1⟩

/-- The bitmap whose index `i` is a member when the `i`th boolean is true. -/
def ofBools (bits : List Bool) : Bitmap := bits.foldl push (empty 0)

/-- Whether `i` is a member. -/
def contains (b : Bitmap) (i : Nat) : Bool := decide (i < b.size) && bitAt b.words i

/-- Makes `i` a member, and says whether it was none before. -/
def insert (b : Bitmap) (i : Nat) : Except Fault (Bool × Bitmap) :=
  if i < b.size then .ok (!b.contains i, { b with words := setAt b.words i })
  else .error (.indexOutOfRange i b.size)

/-- Makes `i` no member, and says whether it was one before. -/
def erase (b : Bitmap) (i : Nat) : Bool × Bitmap :=
  if i < b.size then (b.contains i, { b with words := clearAt b.words i }) else (false, b)

/-- The common members of two bitmaps of one size. -/
def inter (a b : Bitmap) : Except Fault Bitmap :=
  if a.size = b.size then .ok { a with words := List.zipWith (· &&& ·) a.words b.words }
  else .error .sizesDiffer

/-- The members of either of two bitmaps of one size. -/
def union (a b : Bitmap) : Except Fault Bitmap :=
  if a.size = b.size then .ok { a with words := List.zipWith (· ||| ·) a.words b.words }
  else .error .sizesDiffer

/-- The indices below the size that are no members. -/
def compl (b : Bitmap) : Bitmap := trim { b with words := b.words.map (~~~ ·) }

/-- The number of members. -/
def count (b : Bitmap) : Nat := b.words.foldr (fun w n => w.cpop.toNat + n) 0

/-- Whether there is no member. -/
def isEmpty (b : Bitmap) : Bool := b.words.all (· == 0)

end Bitmap

end RuleFormula
