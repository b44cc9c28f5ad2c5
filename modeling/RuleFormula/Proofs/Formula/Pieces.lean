import Mathlib.Tactic.Lemma
import RuleFormula.Reading.Expression

/-!
# Pieces of names

The name of a formula is written in pieces, which are signs and the names of the leaves. These names
are any texts: they may look like signs, or be empty. So the text alone does not tell the pieces,
but together with the leaves it does (`eq_of_written_eq`), for the signs in front of a leaf cannot
trade places with its name.
-/

namespace RuleFormula

open Reading (Connective)

/-- A piece of a name: a sign, or the name of an atom. -/
inductive Piece
  | not
  | leftParen
  | rightParen
  | between (o : Connective)
  | leaf (a : Atom)

namespace Piece

/-- How a piece is written. -/
def text : Piece → List Char
  | not => ['N', 'O', 'T', ' ']
  | leftParen => ['(']
  | rightParen => [')']
  | between .and => [' ', 'A', 'N', 'D', ' ']
  | between .or => [' ', 'O', 'R', ' ']
  | leaf a => a.name.toList

/-- The text of pieces. -/
def written (xs : List Piece) : List Char := xs.flatMap text

/-- The atom whose name a piece is, if it is one. -/
def atoms : Piece → List Atom
  | leaf a => [a]
  | _ => []

/-- The atoms whose names are among pieces, from left to right. -/
def leaves (xs : List Piece) : List Atom := xs.flatMap atoms

@[simp] lemma written_cons (x : Piece) (xs : List Piece) :
    written (x :: xs) = x.text ++ written xs := List.flatMap_cons

@[simp] lemma written_append (xs ys : List Piece) :
    written (xs ++ ys) = written xs ++ written ys := List.flatMap_append

@[simp] lemma leaves_cons (x : Piece) (xs : List Piece) : leaves (x :: xs) = x.atoms ++ leaves xs :=
  List.flatMap_cons

@[simp] lemma leaves_append (xs ys : List Piece) : leaves (xs ++ ys) = leaves xs ++ leaves ys :=
  List.flatMap_append

/-! ## Pieces in the order of a formula -/

/-- Pieces follow each other as in a formula: an operand must come next, for `true`, or has just
ended, for `false`. -/
inductive Alternates : Bool → List Piece → Prop
  | not {xs} : Alternates true xs → Alternates true (.not :: xs)
  | leftParen {xs} : Alternates true xs → Alternates true (.leftParen :: xs)
  | leaf (a : Atom) {xs} : Alternates false xs → Alternates true (.leaf a :: xs)
  | nil : Alternates false []
  | rightParen {xs} : Alternates false xs → Alternates false (.rightParen :: xs)
  | between (o : Connective) {xs} : Alternates true xs → Alternates false (.between o :: xs)

variable {xs ys us : List Piece} {a : Atom} {due : Bool}

/-- The signs that stand in front of an operand. -/
def IsOpening : Piece → Prop
  | not | leftParen => True
  | _ => False

/-- Only openings stand in front of the first leaf. -/
lemma Alternates.exists_openings (h : Alternates true xs) :
    ∃ us a zs, xs = us ++ .leaf a :: zs ∧ (∀ u ∈ us, IsOpening u) := by
  generalize e : true = due at h
  induction h with
  | not _ ih =>
    obtain ⟨us, a, zs, rfl, hu⟩ := ih e
    exact ⟨.not :: us, a, zs, rfl, List.forall_mem_cons.2 ⟨trivial, hu⟩⟩
  | leftParen _ ih =>
    obtain ⟨us, a, zs, rfl, hu⟩ := ih e
    exact ⟨.leftParen :: us, a, zs, rfl, List.forall_mem_cons.2 ⟨trivial, hu⟩⟩
  | @leaf a xs _ _ => exact ⟨[], a, xs, rfl, List.forall_mem_nil _⟩
  | nil | rightParen | between => cases e

/-- The letters in which openings are written. -/
def openingLetters : List Char := ['N', 'O', 'T', ' ', '(']

/-- Signs in front of an operand are written in few letters. -/
lemma mem_openingLetters (hu : ∀ u ∈ us, IsOpening u) {c : Char} (hc : c ∈ written us) :
    c ∈ openingLetters := by
  obtain ⟨u, hm, hc⟩ := List.mem_flatMap.1 hc
  have opening := hu u hm
  cases u with
  | not => exact List.mem_append_left ['('] hc
  | leftParen => exact List.mem_append_right ['N', 'O', 'T', ' '] hc
  | _ => exact opening.elim

/-- No sign in front of an operand is written as nothing. -/
lemma written_openings_ne_nil (hn : us ≠ []) (hu : ∀ u ∈ us, IsOpening u) : written us ≠ [] := by
  obtain ⟨u, us, rfl⟩ := List.exists_cons_of_ne_nil hn
  have opening := hu u List.mem_cons_self
  cases u with
  | not | leftParen => exact List.cons_ne_nil _ _
  | _ => exact opening.elim

/-- The only opening with a blank has four letters. -/
lemma four_le_length_written (hu : ∀ u ∈ us, IsOpening u) (hb : ' ' ∈ written us) :
    4 ≤ (written us).length := by
  obtain ⟨u, hm, hc⟩ := List.mem_flatMap.1 hb
  obtain ⟨front, back, rfl⟩ := List.append_of_mem hm
  have opening := hu u hm
  cases u with
  | not =>
    simp only [written_append, written_cons, text, List.length_append, List.length_cons]
    omega
  | leftParen => exact absurd hc (by decide)
  | _ => exact opening.elim

/-- What comes after an operand begins with a letter that no opening has, or with a blank and such
a letter soon after it. -/
lemma Alternates.exists_foreign (h : Alternates false xs) {n : Nat} (hn : 0 < n)
    (hl : n ≤ (written xs).length) (hb : ' ' ∈ (written xs).take n → 4 ≤ n) :
    ∃ c ∈ (written xs).take n, c ∉ openingLetters := by
  have first {c : Char} {cs : List Char} : c ∈ (c :: cs).take n :=
    List.mem_take_iff_getElem.2 ⟨0, Nat.lt_min.2 ⟨hn, Nat.succ_pos _⟩, rfl⟩
  cases h with
  | nil => exact absurd hl (Nat.not_le.2 hn)
  | rightParen _ => exact ⟨')', first, by decide⟩
  | between o _ =>
    cases o with
    | and =>
      obtain ⟨k, rfl⟩ := Nat.exists_eq_add_of_le' (hb first)
      exact ⟨'A', List.mem_cons_of_mem _ List.mem_cons_self, by decide⟩
    | or =>
      obtain ⟨k, rfl⟩ := Nat.exists_eq_add_of_le' (hb first)
      exact ⟨'R', List.mem_cons_of_mem _ (List.mem_cons_of_mem _ List.mem_cons_self), by decide⟩

/-- Signs in front of the name of a leaf do not have the text of this name with what comes after an
operand. -/
lemma written_leaf_ne (hx : Alternates false xs) (hn : us ≠ []) (hu : ∀ u ∈ us, IsOpening u)
    (zs : List Char) : a.name.toList ++ written xs ≠ written us ++ (a.name.toList ++ zs) := by
  intro e
  have len := congrArg List.length e
  simp only [List.length_append] at len
  -- as many letters after the name as the signs have are a rearrangement of the signs
  have perm : ((written xs).take (written us).length).Perm (written us) := by
    have same := congrArg (List.take (a.name.toList.length + (written us).length)) e
    rw [List.take_length_add_append, ← List.append_assoc,
      List.take_left' (by rw [List.length_append, Nat.add_comm])] at same
    refine (List.perm_append_left_iff a.name.toList).1 ?_
    rw [same]
    exact List.perm_append_comm
  obtain ⟨c, hc, foreign⟩ := hx.exists_foreign
    (List.length_pos_iff.2 (written_openings_ne_nil hn hu)) (by omega)
    (fun hb => four_le_length_written hu (perm.mem_iff.1 hb))
  exact foreign (mem_openingLetters hu (perm.mem_iff.1 hc))

/-- A leaf and a sign in its place do not begin the same text with the same leaves. -/
lemma written_ne_of_opening {x : Piece} (hx : Alternates false xs) (ho : IsOpening x)
    (hy : Alternates true ys) (hl : leaves (leaf a :: xs) = leaves (x :: ys)) :
    written (leaf a :: xs) ≠ written (x :: ys) := by
  obtain ⟨us, b, zs, rfl, hu⟩ := hy.exists_openings
  have openings : ∀ u ∈ x :: us, IsOpening u := List.forall_mem_cons.2 ⟨ho, hu⟩
  have none : leaves (x :: us) = [] := by
    refine List.flatMap_eq_nil_iff.2 fun u hm => ?_
    have opening := openings u hm
    cases u with
    | leaf a => exact opening.elim
    | _ => rfl
  rw [← List.cons_append, leaves_append, none, List.nil_append] at hl
  obtain ⟨rfl, _⟩ := List.cons.inj hl
  rw [← List.cons_append, written_append, written_cons, written_cons (leaf a)]
  exact written_leaf_ne hx (List.cons_ne_nil x us) openings (written zs)

/-- Pieces with one text and the same leaves are the same. -/
theorem eq_of_written_eq (hx : Alternates due xs) (hy : Alternates due ys)
    (ht : written xs = written ys) (hl : leaves xs = leaves ys) : xs = ys := by
  induction hx generalizing ys with
  | @not xs hx ih =>
    cases hy with
    | not hy => rw [ih hy (List.append_cancel_left ht) hl]
    | leftParen _ => cases ht
    | leaf b hy => exact absurd ht.symm (written_ne_of_opening hy trivial hx hl.symm)
  | @leftParen xs hx ih =>
    cases hy with
    | not _ => cases ht
    | leftParen hy => rw [ih hy (List.append_cancel_left ht) hl]
    | leaf b hy => exact absurd ht.symm (written_ne_of_opening hy trivial hx hl.symm)
  | leaf a hx ih =>
    cases hy with
    | not hy => exact absurd ht (written_ne_of_opening hx trivial hy hl)
    | leftParen hy => exact absurd ht (written_ne_of_opening hx trivial hy hl)
    | leaf b hy =>
      obtain ⟨rfl, later⟩ := List.cons.inj hl
      rw [ih hy (List.append_cancel_left ht) later]
  | nil =>
    cases hy with
    | nil => rfl
    | rightParen _ => cases ht
    | between o _ => cases o <;> cases ht
  | rightParen hx ih =>
    cases hy with
    | nil => cases ht
    | rightParen hy => rw [ih hy (List.append_cancel_left ht) hl]
    | between o _ => cases o <;> cases ht
  | between o hx ih =>
    cases hy with
    | nil => cases o <;> cases ht
    | rightParen _ => cases o <;> cases ht
    | between o' hy =>
      have same : o = o' := by cases o <;> cases o' <;> first | rfl | cases ht
      subst same
      rw [ih hy (List.append_cancel_left ht) hl]

end Piece

end RuleFormula
