import Mathlib.Data.List.Nodup
import RuleFormula.Proofs.Reading.Tokens
import RuleFormula.Reading.Lemmas

/-!
# Names that can be told apart

A name may hold spaces, parentheses and keywords, and is still found in a text when it begins with a
word, has no white space around it, and neither is the beginning of another name nor has another
name as its beginning, as far as tokens go (`Legible`). Then the resolver accepts no other span of
those that begin with its first word, and the lookahead does not matter (`Legible.termOf_atom`).
-/

namespace RuleFormula

open Text (isBlank)
open Token

/-- One text is another from its start to the end of one of its tokens, which is not the last. -/
def TokenPrefix (short long : String) : Prop :=
  ∃ k < (tokenize long.toList).length, 0 < k ∧
    short.toList = written ((tokenize long.toList).take k)

instance (short long : String) : Decidable (TokenPrefix short long) :=
  inferInstanceAs (Decidable (∃ k < _, _))

/-- A text that begins with a word and has no white space around it. -/
structure IsPlain (name : String) : Prop where
  nonempty : name ≠ ""
  first : ∀ c ∈ name.toList.head?, isBlank c = false
  last : ∀ c ∈ name.toList.getLast?, isBlank c = false
  word : ∃ t ts, tokenize name.toList = t :: ts ∧ t.keyword? = none

/-- Atoms with different and plain names, of which none is the beginning of another. -/
structure Legible (A : List Atom) : Prop where
  distinct : (A.map (·.name)).Nodup
  plain : ∀ a ∈ A, IsPlain a.name
  apart : ∀ a ∈ A, ∀ b ∈ A, a ≠ b → ¬ TokenPrefix a.name b.name

variable {A : List Atom} {a b : Atom} {post : List Char}

/-! ## The resolver of names -/

/-- In a table without repeated keys, what is found is what is there. -/
lemma lookup_eq_some_iff_mem {α β : Type} [BEq α] [LawfulBEq α] {l : List (α × β)} {x : α} {y : β}
    (h : (l.map Prod.fst).Nodup) : l.lookup x = some y ↔ (x, y) ∈ l := by
  induction l with
  | nil => exact ⟨nofun, nofun⟩
  | cons e l ih =>
    obtain ⟨x', y'⟩ := e
    obtain ⟨new, h⟩ := List.nodup_cons.1 h
    rw [List.lookup_cons, List.mem_cons]
    cases e : x == x' with
    | true =>
      obtain rfl := beq_iff_eq.1 e
      refine ⟨fun hy => .inl (Option.some.inj hy ▸ rfl), fun hy => ?_⟩
      obtain hy | hy := hy
      · cases hy
        rfl
      · exact absurd (List.mem_map_of_mem hy) new
    | false =>
      refine (ih h).trans ⟨.inr, fun hy => hy.resolve_left fun hy => ?_⟩
      cases hy
      rw [BEq.rfl] at e
      cases e

/-- The resolver of atoms with different names knows these names only. -/
lemma resolveNames_atoms (h : (A.map (·.name)).Nodup) {name : String} {p : Formula} :
    resolveNames (A.map .atom) name = some p ↔ ∃ a ∈ A, a.name = name ∧ .atom a = p := by
  have keys : ((A.map Formula.atom).reverse.map fun p => (p.name, p)).map Prod.fst =
      (A.map (·.name)).reverse := by
    rw [List.map_map, List.map_reverse, List.map_map]
    rfl
  have distinct := List.nodup_reverse.2 h
  rw [← keys] at distinct
  rw [resolveNames, lookup_eq_some_iff_mem distinct]
  simp only [List.mem_map, List.mem_reverse, Prod.mk.injEq]
  constructor
  · rintro ⟨_, ⟨a, ha, rfl⟩, hn, hp⟩
    exact ⟨a, ha, hn, hp⟩
  · rintro ⟨a, ha, hn, rfl⟩
    exact ⟨_, ⟨a, ha, rfl⟩, hn, rfl⟩

/-! ## Spans -/

/-- The text from `span` to the end of the last of `n` tokens after it. -/
def spanText (span : List Char) (ts : List Token) (n : Nat) : List Char :=
  span ++ written (ts.take n)

variable {lookahead : Lookahead} {resolve : String → Option Formula} {span : List Char}
  {t : Token} {ts : List Token} {p : Formula}

@[simp] lemma spanText_zero : spanText span ts 0 = span := List.append_nil span

/-- One token more is written behind the span, with its white space. -/
lemma spanText_succ (n : Nat) :
    spanText span (t :: ts) (n + 1) = spanText (span ++ t.gap ++ t.text) ts n := by
  rw [spanText, spanText, List.take_succ_cons, written_cons]
  simp only [List.append_assoc]

/-- The spans that begin with a token are the texts of it and of some tokens after it. -/
lemma spanText_eq_written (hg : t.gap = []) (ts : List Token) (n : Nat) :
    spanText t.text ts n = written ((t :: ts).take (n + 1)) := by
  rw [List.take_succ_cons, written_cons, hg]
  rfl

/-- Nothing is found where no span is accepted. -/
lemma spanOf_eq_none (h : ∀ n ≤ ts.length, resolve (String.ofList (spanText span ts n)) = none) :
    Reading.spanOf lookahead resolve span ts = none := by
  have here := h 0 (Nat.zero_le _)
  rw [spanText_zero] at here
  induction ts generalizing span with
  | nil => rw [Reading.spanOf_nil, here, Option.map_none]
  | cons t ts ih =>
    have later : ∀ n ≤ ts.length,
        resolve (String.ofList (spanText (span ++ t.gap ++ t.text) ts n)) = none :=
      fun n hn => spanText_succ n ▸ h (n + 1) (Nat.succ_le_succ hn)
    have next := later 0 (Nat.zero_le _)
    rw [spanText_zero] at next
    rw [Reading.spanOf_cons, here, ih later next]
    split <;> rfl

/-- Where one span only is accepted it is the name, under each lookahead. -/
lemma spanOf_eq_some {n : Nat} (hn : n ≤ ts.length)
    (hp : resolve (String.ofList (spanText span ts n)) = some p)
    (h : ∀ k ≤ ts.length, k ≠ n → resolve (String.ofList (spanText span ts k)) = none) :
    Reading.spanOf lookahead resolve span ts = some (p, n) := by
  induction ts generalizing span n with
  | nil =>
    obtain rfl := Nat.le_zero.1 hn
    rw [spanText_zero] at hp
    rw [Reading.spanOf_nil, hp, Option.map_some]
  | cons t ts ih =>
    rw [Reading.spanOf_cons]
    cases n with
    | zero =>
      have none_later : Reading.spanOf lookahead resolve (span ++ t.gap ++ t.text) ts = none :=
        spanOf_eq_none fun k hk =>
          spanText_succ k ▸ h (k + 1) (Nat.succ_le_succ hk) (Nat.succ_ne_zero k)
      rw [spanText_zero] at hp
      rw [none_later, hp]
      split <;> rfl
    | succ n =>
      have here := h 0 (Nat.zero_le _) (Nat.succ_ne_zero n).symm
      rw [spanText_zero] at here
      rw [spanText_succ] at hp
      have later : Reading.spanOf lookahead resolve (span ++ t.gap ++ t.text) ts = some (p, n) :=
        ih (Nat.le_of_succ_le_succ hn) hp fun k hk hkn =>
          spanText_succ k ▸ h (k + 1) (Nat.succ_le_succ hk) (mt Nat.succ.inj hkn)
      rw [here, later]
      split
      next found => cases found.2
      next => rfl

/-! ## Beginnings of names -/

/-- It does not matter where the longer text starts. -/
lemma TokenPrefix.of_start {short long : String} {start k : Nat}
    (hk : k < (tokenizeFrom start long.toList).length) (hp : 0 < k)
    (h : short.toList = written ((tokenizeFrom start long.toList).take k)) :
    TokenPrefix short long := by
  have e : tokenizeFrom start long.toList = (tokenize long.toList).map (shift start) :=
    tokenizeFrom_shift start 0 _
  rw [e, List.length_map] at hk
  rw [e, ← List.map_take, written_map_shift] at h
  exact ⟨k, hk, hp, h⟩

/-- The beginning of a text is not the whole text. -/
lemma TokenPrefix.ne {short long : String} (h : TokenPrefix short long) : short ≠ long := by
  rintro rfl
  obtain ⟨k, hk, _, e⟩ := h
  have again := tokenizeFrom_written <| List.take_prefix k (tokenize short.toList)
  rw [← e] at again
  have length := congrArg List.length again
  rw [← tokenize, List.length_take] at length
  omega

/-- No token of a plain name goes on after it. -/
lemma IsPlain.cut {name : String} (h : IsPlain name) (hp : Bounded post) :
    Cut name.toList post := by
  have some : name.toList ≠ [] := mt String.toList_eq_nil_iff.1 h.nonempty
  refine ⟨name.toList.dropLast, name.toList.getLast some, ?_, ?_, .inr hp⟩
  · exact (List.dropLast_append_getLast some).symm
  · exact h.last _ (List.getLast?_eq_some_getLast some)

/-- A plain name begins with a word, wherever it stands. -/
lemma IsPlain.tokenizeFrom_eq {name : String} (h : IsPlain name) (start : Nat) :
    ∃ t ts, tokenizeFrom start name.toList = t :: ts ∧ t.gap = [] ∧ t.keyword? = none := by
  obtain ⟨t, ts, e, hk⟩ := h.word
  have e' : tokenizeFrom start name.toList = t.shift start :: ts.map (shift start) := by
    rw [← List.map_cons, ← e]
    exact tokenizeFrom_shift start 0 _
  refine ⟨_, _, e', ?_, hk⟩
  cases hc : name.toList with
  | nil => exact absurd (String.toList_eq_nil_iff.1 hc) h.nonempty
  | cons c cs =>
    rw [hc] at e'
    exact gap_of_head (h.first c (hc ▸ rfl)) e'

/-! ## Names in a text -/

/-- A span that begins with a name in a text, and is not that name, is no name. -/
lemma Legible.resolve_eq_none (h : Legible A) (ha : a ∈ A) (hp : Bounded post) {start k : Nat}
    (hk : 0 < k) (hl : k ≤ (tokenizeFrom start (a.name.toList ++ post)).length)
    (hn : k ≠ (tokenizeFrom start a.name.toList).length) :
    resolveNames (A.map .atom)
      (String.ofList (written ((tokenizeFrom start (a.name.toList ++ post)).take k))) = none := by
  refine Option.eq_none_iff_forall_not_mem.2 fun p hp' => ?_
  obtain ⟨b, hb, e, _⟩ := (resolveNames_atoms h.distinct).1 hp'
  replace e := (congrArg String.toList e).trans String.toList_ofList
  have cut := (h.plain a ha).cut hp
  obtain short | long := Nat.lt_or_gt_of_ne hn
  · -- a shorter span would be the beginning of the name
    rw [tokenizeFrom_append cut, List.take_append_of_le_length (Nat.le_of_lt short)] at e
    have begins : TokenPrefix b.name a.name := .of_start short hk e
    exact h.apart b hb a ha (fun e => begins.ne (congrArg _ e)) begins
  · -- a longer span would have the name as its beginning
    have again := tokenizeFrom_written <|
      List.take_prefix k (tokenizeFrom start (a.name.toList ++ post))
    rw [← e] at again
    have begins : TokenPrefix a.name b.name := by
      refine @TokenPrefix.of_start _ _ start (tokenizeFrom start a.name.toList).length ?_ ?_ ?_
      · rw [again, List.length_take, Nat.min_eq_left hl]
        exact long
      · obtain ⟨t, ts, e, _, _⟩ := (h.plain a ha).tokenizeFrom_eq start
        exact e ▸ Nat.succ_pos _
      · rw [again, List.take_take, Nat.min_eq_left (Nat.le_of_lt long), tokenizeFrom_append cut,
          List.take_left, written_tokenizeFrom cut]
    exact h.apart a ha b hb (fun e => begins.ne (congrArg _ e)) begins

/-- A name in a text is read as its atom. -/
theorem Legible.termOf_atom (h : Legible A) (ha : a ∈ A) (hp : Bounded post) (start : Nat) :
    Reading.termOf lookahead (resolveNames (A.map .atom))
      (tokenizeFrom start (a.name.toList ++ post)) =
      .ok (.atom a, tokenizeFrom (start + byteLength a.name.toList) post) := by
  have cut := (h.plain a ha).cut hp
  obtain ⟨t, ts, e, hg, hk⟩ := (h.plain a ha).tokenizeFrom_eq start
  have tokens := tokenizeFrom_append cut start
  have others := @Legible.resolve_eq_none A a post h ha hp start
  generalize tokenizeFrom (start + byteLength a.name.toList) post = us at tokens ⊢
  rw [tokens, e, List.cons_append] at others
  have spans := spanText_eq_written hg (ts ++ us)
  have whole : spanText t.text (ts ++ us) ts.length = a.name.toList := by
    rw [spans, List.take_succ_cons, List.take_left, ← e, written_tokenizeFrom cut]
  have found : Reading.spanOf lookahead (resolveNames (A.map .atom)) t.text (ts ++ us) =
      some (.atom a, ts.length) := by
    refine spanOf_eq_some ?_ ?_ fun k hk hn => ?_
    · rw [List.length_append]
      exact Nat.le_add_right _ _
    · rw [whole, String.ofList_toList]
      exact (resolveNames_atoms h.distinct).2 ⟨a, ha, rfl, rfl⟩
    · rw [spans]
      exact others (Nat.succ_pos k) (Nat.succ_le_succ hk) (mt Nat.succ.inj hn)
  rw [tokens, e, List.cons_append, Reading.termOf_name _ _ _ hk, found]
  dsimp only
  rw [List.drop_left]

end RuleFormula
