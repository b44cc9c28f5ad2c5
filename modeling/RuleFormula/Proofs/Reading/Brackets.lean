import Mathlib.Data.List.Induction
import RuleFormula.Proofs.Reading.Lexemes

/-!
# Parentheses and their partners

A text is balanced when each parenthesis that is closed was open and none is left open. An opening
parenthesis and a closing one are partners when the text between them is balanced. In a balanced
text each parenthesis has a partner (`Balanced.hasPartner`).
-/

namespace RuleFormula

variable {c : Char} {k l m n : Nat} {xs ys before after inner : List Char}

/-! ## Balanced texts -/

/-- How many parentheses are open after a text that has `n` open ones before it. There is no answer
where one is closed that is not open. -/
def depth : Nat → List Char → Option Nat
  | n, [] => some n
  | n, c :: cs =>
    if c = '(' then depth (n + 1) cs
    else if c = ')' then
      match n with
      | 0 => none
      | n + 1 => depth n cs
    else depth n cs

/-- All parentheses that are opened are closed, and no others. -/
def Balanced (cs : List Char) : Prop := depth 0 cs = some 0

instance (cs : List Char) : Decidable (Balanced cs) := inferInstanceAs (Decidable (_ = _))

@[simp] lemma depth_nil : depth n [] = some n := rfl

@[simp] lemma depth_left : depth n ('(' :: xs) = depth (n + 1) xs := rfl

@[simp] lemma depth_right_zero : depth 0 (')' :: xs) = none := rfl

@[simp] lemma depth_right_succ : depth (n + 1) (')' :: xs) = depth n xs := rfl

/-- Characters other than parentheses open and close nothing. -/
lemma depth_other (h : isParenthesis c = false) : depth n (c :: xs) = depth n xs := by
  rw [isParenthesis, Bool.or_eq_false_iff, decide_eq_false_iff_not, decide_eq_false_iff_not] at h
  exact (if_neg h.1).trans (if_neg h.2)

/-- A character opens, closes, or does neither. -/
lemma isParenthesis_cases (c : Char) : c = '(' ∨ c = ')' ∨ isParenthesis c = false := by
  cases hp : isParenthesis c with
  | false => exact .inr (.inr rfl)
  | true =>
    rw [isParenthesis, Bool.or_eq_true, decide_eq_true_eq, decide_eq_true_eq] at hp
    exact hp.imp_right .inl

/-- A text is gone through in two parts, the second with what the first leaves open. -/
lemma depth_append : depth n (xs ++ ys) = (depth n xs).bind (depth · ys) := by
  induction xs generalizing n with
  | nil => rfl
  | cons c xs ih =>
    rw [List.cons_append]
    obtain rfl | rfl | hc := isParenthesis_cases c
    · exact ih
    · cases n with
      | zero => rfl
      | succ n => exact ih
    · rw [depth_other hc, depth_other hc, ih]

/-- More parentheses that are open before a text are open after it. -/
lemma depth_add (h : depth n xs = some m) : depth (n + k) xs = some (m + k) := by
  induction xs generalizing n with
  | nil =>
    obtain rfl := Option.some.inj h
    rfl
  | cons c xs ih =>
    obtain rfl | rfl | hc := isParenthesis_cases c
    · rw [depth_left] at h ⊢
      rw [Nat.add_right_comm]
      exact ih h
    · cases n with
      | zero => cases h
      | succ n =>
        rw [depth_right_succ] at h
        rw [Nat.add_right_comm, depth_right_succ]
        exact ih h
    · rw [depth_other hc] at h ⊢
      exact ih h

/-- A part without parentheses may be left out. -/
lemma depth_append_other (h : ∀ c ∈ xs, isParenthesis c = false) :
    depth n (xs ++ ys) = depth n ys := by
  induction xs with
  | nil => rfl
  | cons c xs ih =>
    obtain ⟨hc, h⟩ := List.forall_mem_cons.1 h
    rw [List.cons_append, depth_other hc, ih h]

/-- A balanced text leaves open what is open. -/
lemma Balanced.depth_eq (h : Balanced xs) (n : Nat) : depth n xs = some n := by
  have more := depth_add (k := n) h
  rwa [Nat.zero_add] at more

/-- A balanced part may be left out. -/
lemma Balanced.depth_append (h : Balanced xs) : depth n (xs ++ ys) = depth n ys := by
  rw [RuleFormula.depth_append, h.depth_eq]
  rfl

/-- A text after a balanced one is balanced exactly when both together are. -/
lemma Balanced.append_iff (h : Balanced xs) : Balanced (xs ++ ys) ↔ Balanced ys := by
  rw [Balanced, h.depth_append, Balanced]

/-- In a balanced text no closing parenthesis comes after a balanced beginning. -/
lemma Balanced.not_append_right (h : Balanced xs) : ¬ Balanced (xs ++ ')' :: ys) := by
  rw [h.append_iff, Balanced, depth_right_zero]
  exact nofun

/-- In a balanced text no opening parenthesis comes before a balanced end. -/
lemma Balanced.not_append_left (h : Balanced ys) : ¬ Balanced (xs ++ '(' :: ys) := by
  rw [Balanced, RuleFormula.depth_append]
  intro e
  obtain ⟨n, _, open_⟩ := Option.bind_eq_some_iff.1 e
  rw [depth_left, h.depth_eq] at open_
  cases open_

/-! ## Partners -/

/-- An opening and a closing parenthesis, with so many bytes before each, and a balanced text
between them. -/
def Partners (cs : List Char) (m n : Nat) : Prop :=
  ∃ before inner after, cs = before ++ '(' :: (inner ++ ')' :: after) ∧ Balanced inner ∧
    byteLength before = m ∧ byteLength (before ++ '(' :: inner) = n

/-- The parenthesis with so many bytes before it is one of two partners. -/
def HasPartner (cs : List Char) (n : Nat) : Prop := ∃ m, Partners cs n m ∨ Partners cs m n

/-- The place of a character says what is before it. -/
lemma append_inj_of_byteLength {xs' ys' : List Char} (h : xs ++ ys = xs' ++ ys')
    (hl : byteLength xs = byteLength xs') : xs = xs' ∧ ys = ys' := by
  have same {zs zs' mid : List Char} (e : zs' = zs ++ mid)
      (hl : byteLength zs = byteLength zs') : mid = [] := by
    by_contra hn
    have := byteLength_pos hn
    rw [e, byteLength_append] at hl
    omega
  obtain ⟨mid, e, e'⟩ | ⟨mid, e, e'⟩ := List.append_eq_append_iff.1 h
  · obtain rfl := same e hl
    exact ⟨(e.trans (List.append_nil xs)).symm, e'⟩
  · obtain rfl := same e hl.symm
    exact ⟨e.trans (List.append_nil xs'), e'.symm⟩

/-- An opening parenthesis has a partner when a closing one comes after a balanced text. -/
lemma hasPartner_left_iff : HasPartner (before ++ '(' :: after) (byteLength before) ↔
    ∃ inner rest, after = inner ++ ')' :: rest ∧ Balanced inner := by
  constructor
  · rintro ⟨_, ⟨_, inner, rest, e, hi, hl, _⟩ | ⟨before', inner, rest, e, _, _, hl⟩⟩
    · obtain ⟨_, e⟩ := append_inj_of_byteLength e hl.symm
      exact ⟨inner, rest, (List.cons.inj e).2, hi⟩
    · rw [← List.cons_append, ← List.append_assoc] at e
      obtain ⟨_, e⟩ := append_inj_of_byteLength e hl.symm
      cases e
  · rintro ⟨inner, rest, rfl, hi⟩
    exact ⟨_, .inl ⟨before, inner, rest, rfl, hi, rfl, rfl⟩⟩

/-- A closing parenthesis has a partner when an opening one comes before a balanced text. -/
lemma hasPartner_right_iff : HasPartner (before ++ ')' :: after) (byteLength before) ↔
    ∃ rest inner, before = rest ++ '(' :: inner ∧ Balanced inner := by
  constructor
  · rintro ⟨_, ⟨_, _, _, e, _, hl, _⟩ | ⟨before', inner, rest, e, hi, _, hl⟩⟩
    · obtain ⟨_, e⟩ := append_inj_of_byteLength e hl.symm
      cases e
    · rw [← List.cons_append, ← List.append_assoc] at e
      obtain ⟨e, _⟩ := append_inj_of_byteLength e hl.symm
      exact ⟨before', inner, e, hi⟩
  · rintro ⟨rest, inner, rfl, hi⟩
    refine ⟨_, .inr ⟨rest, inner, after, ?_, hi, rfl, rfl⟩⟩
    rw [List.append_assoc, List.cons_append]

/-- Where a text closes one of `n + 1` parentheses that were open before `k` others, it closes these
`k` first. -/
lemma exists_right (h : depth (k + (n + 1)) xs = some m) (hm : m ≤ n) :
    ∃ inner rest, xs = inner ++ ')' :: rest ∧ depth k inner = some 0 := by
  induction xs generalizing k with
  | nil =>
    rw [depth_nil, Option.some.injEq] at h
    omega
  | cons c xs ih =>
    obtain rfl | rfl | hc := isParenthesis_cases c
    · rw [depth_left, Nat.add_right_comm] at h
      obtain ⟨inner, rest, rfl, hi⟩ := ih h
      exact ⟨'(' :: inner, rest, rfl, hi⟩
    · cases k with
      | zero => exact ⟨[], xs, rfl, rfl⟩
      | succ k =>
        rw [Nat.add_right_comm, depth_right_succ] at h
        obtain ⟨inner, rest, rfl, hi⟩ := ih h
        exact ⟨')' :: inner, rest, rfl, hi⟩
    · rw [depth_other hc] at h
      obtain ⟨inner, rest, rfl, hi⟩ := ih h
      exact ⟨c :: inner, rest, rfl, (depth_other hc).trans hi⟩

/-- Where more than `m` parentheses are open after a text, one of them is opened in it with `m`
others after it. -/
lemma exists_left (h : depth 0 xs = some (l + 1 + m)) :
    ∃ rest inner, xs = rest ++ '(' :: inner ∧ depth 0 inner = some m := by
  induction xs using List.reverseRecOn generalizing m with
  | nil =>
    rw [depth_nil, Option.some.injEq] at h
    omega
  | append_singleton xs c ih =>
    rw [depth_append] at h
    obtain ⟨j, hj, h⟩ := Option.bind_eq_some_iff.1 h
    have longer {k : Nat} (found : ∃ rest inner, xs = rest ++ '(' :: inner ∧ depth 0 inner = some k)
        (hc : depth k [c] = some m) :
        ∃ rest inner, xs ++ [c] = rest ++ '(' :: inner ∧ depth 0 inner = some m := by
      obtain ⟨rest, inner, rfl, hi⟩ := found
      refine ⟨rest, inner ++ [c], ?_, ?_⟩
      · rw [List.append_assoc, List.cons_append]
      · rw [depth_append, hi]
        exact hc
    obtain rfl | rfl | hc := isParenthesis_cases c
    · cases m with
      | zero => exact ⟨xs, [], rfl, rfl⟩
      | succ m =>
        obtain rfl : j = l + 1 + m := Nat.succ.inj (Option.some.inj h)
        exact longer (ih hj) rfl
    · cases j with
      | zero => cases h
      | succ j =>
        obtain rfl := Option.some.inj h
        exact longer (ih (m := m + 1) hj) rfl
    · rw [depth_other hc] at h
      obtain rfl := Option.some.inj h
      exact longer (ih hj) (depth_other hc)

/-- In a balanced text each parenthesis has a partner. -/
theorem Balanced.hasPartner (h : Balanced (before ++ c :: after)) (hp : isParenthesis c = true) :
    HasPartner (before ++ c :: after) (byteLength before) := by
  rw [Balanced, RuleFormula.depth_append] at h
  obtain ⟨n, hn, h⟩ := Option.bind_eq_some_iff.1 h
  obtain rfl | rfl | hc := isParenthesis_cases c
  · refine hasPartner_left_iff.2 (exists_right (k := 0) (n := n) ?_ (Nat.zero_le n))
    rwa [Nat.zero_add]
  · cases n with
    | zero => cases h
    | succ n => exact hasPartner_right_iff.2 (exists_left (l := n) hn)
  · rw [hc] at hp
    cases hp

end RuleFormula
