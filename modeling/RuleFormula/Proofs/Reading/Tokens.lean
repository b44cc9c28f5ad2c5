import Mathlib.Tactic.Lemma
import RuleFormula.Reading.Token

/-!
# Tokens of a text and of its parts

The tokens of a text are those of a part of it followed by those of the rest, where the part does
not end within a word or in white space (`tokenizeFrom_append`). Some tokens from the beginning on,
when they are written again, have the same tokens (`tokenizeFrom_written`).
-/

namespace RuleFormula

open Text (isBlank)

namespace Token

variable {c : Char} {start : Nat} {t : Token} {ts us pre : List Token} {xs ys : List Char}

/-! ## One character -/

/-- What a character makes of the tokens after it: it is white space before the first token or after
the last, goes into the first token, or is a token that stands apart. -/
inductive Consed (c : Char) (start : Nat) : List Token → List Token → Prop
  | lost : isBlank c = true → Consed c start [] []
  | gap (t : Token) (ts : List Token) : isBlank c = true →
    Consed c start (t :: ts) ({ t with gap := c :: t.gap } :: ts)
  | joined (t : Token) (ts : List Token) : isBlank c = false → isParenthesis c = false →
    t.isOpen = true → Consed c start (t :: ts) (⟨[], start, c :: t.text⟩ :: ts)
  | apart (ts : List Token) : isBlank c = false →
    (isParenthesis c = true ∨ ∀ t, ts.head? = some t → t.isOpen = false) →
    Consed c start ts (⟨[], start, [c]⟩ :: ts)

/-- One character makes of tokens what `Consed` says. -/
lemma consed_consChar (c : Char) (start : Nat) (ts : List Token) :
    Consed c start ts (consChar c start ts) := by
  unfold consChar
  cases hb : isBlank c with
  | true =>
    rw [if_pos rfl]
    cases ts with
    | nil => exact .lost hb
    | cons t ts => exact .gap t ts hb
  | false =>
    rw [if_neg Bool.false_ne_true]
    cases ts with
    | nil => exact .apart [] hb (.inr nofun)
    | cons t ts =>
      dsimp only
      cases hp : isParenthesis c with
      | true => exact .apart _ hb (.inl hp)
      | false =>
        cases ho : t.isOpen with
        | true => exact .joined t ts hb hp ho
        | false => exact .apart _ hb (.inr fun _ e => Option.some.inj e ▸ ho)

/-- What one character makes of tokens is determined. -/
lemma Consed.eq (h : Consed c start ts us) : us = consChar c start ts := by
  unfold consChar
  cases h with
  | lost hb => rw [if_pos hb]
  | gap t ts hb => rw [if_pos hb]
  | joined t ts hb hp ho =>
    rw [hb, if_neg Bool.false_ne_true]
    simp only [hp, ho, Bool.not_false, Bool.and_self, if_true]
  | apart ts hb h =>
    rw [hb, if_neg Bool.false_ne_true]
    cases ts with
    | nil => rfl
    | cons t ts =>
      have closed : (!isParenthesis c && t.isOpen) = false := by
        obtain hp | ho := h
        · rw [hp, Bool.not_true, Bool.false_and]
        · rw [ho t rfl, Bool.and_false]
      simp only [closed, Bool.false_eq_true, if_false]

/-- A character that is no white space leaves a token, and no token is lost. -/
lemma Consed.ne_nil (h : Consed c start ts us) (hn : isBlank c = false ∨ ts ≠ []) : us ≠ [] := by
  cases h with
  | lost hb =>
    obtain hn | hn := hn
    · rw [hb] at hn
      cases hn
    · exact absurd rfl hn
  | _ => exact List.cons_ne_nil _ _

/-- Where there is a token, only the first one takes the character. -/
lemma Consed.append (h : Consed c start ts us) (hn : ts ≠ []) (more : List Token) :
    Consed c start (ts ++ more) (us ++ more) := by
  cases h with
  | lost _ => exact absurd rfl hn
  | gap t ts hb => exact .gap t (ts ++ more) hb
  | joined t ts hb hp ho => exact .joined t (ts ++ more) hb hp ho
  | apart ts hb h =>
    refine .apart (ts ++ more) hb (h.imp_right fun ho t e => ho t ?_)
    cases ts with
    | nil => exact absurd rfl hn
    | cons t ts => exact e

/-- The tokens of a text are made of its first character and the tokens of the rest. -/
lemma consed_tokenizeFrom (c : Char) (start : Nat) (xs : List Char) :
    Consed c start (tokenizeFrom (start + c.utf8Size) xs) (tokenizeFrom start (c :: xs)) :=
  consed_consChar c start _

/-! ## Parts of a text -/

/-- A text with more than white space in it has tokens. -/
lemma tokenizeFrom_ne_nil (hc : c ∈ xs) (hb : isBlank c = false) (start : Nat) :
    tokenizeFrom start xs ≠ [] := by
  induction xs generalizing start with
  | nil => exact absurd hc List.not_mem_nil
  | cons d xs ih =>
    refine (consed_tokenizeFrom d start xs).ne_nil ?_
    obtain rfl | hc := List.mem_cons.1 hc
    · exact .inl hb
    · exact .inr (ih hc _)

/-- No word of a text before `ys` goes on in `ys`. -/
def Bounded (ys : List Char) : Prop :=
  ∀ c, ys.head? = some c → isBlank c = true ∨ isParenthesis c = true

/-- A text ends with a token, which the text after it leaves as it is. -/
def Cut (xs ys : List Char) : Prop :=
  ∃ init c, xs = init ++ [c] ∧ isBlank c = false ∧ (isParenthesis c = true ∨ Bounded ys)

/-- Where no word goes on, the first token takes no character in front of it. -/
lemma Bounded.not_isOpen (h : Bounded ys) (start : Nat) :
    ∀ t, (tokenizeFrom start ys).head? = some t → t.isOpen = false := by
  cases ys with
  | nil => exact nofun
  | cons c ys =>
    intro t e
    have hc := h c rfl
    have consed := consed_tokenizeFrom c start ys
    generalize tokenizeFrom (start + c.utf8Size) ys = ts at consed
    generalize tokenizeFrom start (c :: ys) = us at consed e
    cases consed with
    | lost _ => cases e
    | gap t ts _ =>
      cases e
      rfl
    | joined t ts hb hp _ =>
      -- neither white space nor a parenthesis goes into a word
      rw [hb, hp] at hc
      exact absurd hc (by decide)
    | apart ts hb _ =>
      cases e
      rw [hb] at hc
      obtain hc | hc := hc
      · cases hc
      · simp only [isOpen, List.all_cons, hc, List.all_nil, Bool.and_self, Bool.not_true,
          Bool.and_false]

/-- The tokens of a text are those of a part and those of the rest. -/
theorem tokenizeFrom_append (h : Cut xs ys) (start : Nat) :
    tokenizeFrom start (xs ++ ys) =
      tokenizeFrom start xs ++ tokenizeFrom (start + byteLength xs) ys := by
  -- by the characters before the last one, which decides whether the part may be cut off
  obtain ⟨init, c, rfl, hb, hc⟩ := h
  induction init generalizing start with
  | nil =>
    have alone := @Consed.apart c start [] hb (.inr nofun)
    have before := @Consed.apart c start (tokenizeFrom (start + c.utf8Size) ys) hb
      (hc.imp_right fun hy => hy.not_isOpen _)
    exact before.eq.symm.trans (congrArg (· ++ _) alone.eq)
  | cons d init ih =>
    have some : tokenizeFrom (start + d.utf8Size) (init ++ [c]) ≠ [] :=
      tokenizeFrom_ne_nil (List.mem_append_right init (List.mem_singleton_self c)) hb _
    have consed := (consed_tokenizeFrom d start (init ++ [c])).append some
      (tokenizeFrom (start + d.utf8Size + byteLength (init ++ [c])) ys)
    rw [← ih] at consed
    rw [List.cons_append, List.cons_append, byteLength, ← Nat.add_assoc]
    exact consed.eq.symm

/-- Where the first character is no white space, the first token begins with it. -/
lemma gap_of_head {rest : List Token} (hb : isBlank c = false)
    (h : tokenizeFrom start (c :: xs) = t :: rest) : t.gap = [] := by
  have consed := consed_tokenizeFrom c start xs
  rw [h] at consed
  generalize tokenizeFrom (start + c.utf8Size) xs = ts at consed
  cases consed with
  | gap _ _ hb' =>
    rw [hb] at hb'
    cases hb'
  | joined => rfl
  | apart => rfl

/-! ## Writing tokens again -/

/-- The first token is written behind its white space, and then the others. -/
lemma written_cons (t : Token) (ts : List Token) :
    written (t :: ts) = t.gap ++ t.text ++ written ts :=
  List.flatMap_cons

/-- A word that takes a character in front of it has no white space there. -/
lemma isOpen_gap (h : t.isOpen = true) : t.gap = [] := by
  rw [isOpen, Bool.and_eq_true, List.isEmpty_iff] at h
  exact h.1

/-- Tokens are written with the character in front that made them. -/
lemma Consed.written_eq (h : Consed c start ts us) (hn : us ≠ []) :
    written us = c :: written ts := by
  cases h with
  | lost _ => exact absurd rfl hn
  | gap t ts _ =>
    rw [written_cons, written_cons]
    rfl
  | joined t ts _ _ ho =>
    rw [written_cons, written_cons, isOpen_gap ho]
    rfl
  | apart ts _ _ =>
    rw [written_cons]
    rfl

/-- Some of the first tokens are made of the character and some of the first tokens after it. -/
lemma Consed.first_tokens (h : Consed c start ts us) (hn : pre ≠ []) (hp : pre <+: us) :
    ∃ qs, qs <+: ts ∧ Consed c start qs pre := by
  cases pre with
  | nil => exact absurd rfl hn
  | cons p pre =>
    cases h with
    | lost _ => exact absurd (List.prefix_nil.1 hp) hn
    | gap t ts hb =>
      obtain ⟨rfl, hpre⟩ := List.cons_prefix_cons.1 hp
      exact ⟨t :: pre, List.cons_prefix_cons.2 ⟨rfl, hpre⟩, .gap t pre hb⟩
    | joined t ts hb hb' ho =>
      obtain ⟨rfl, hpre⟩ := List.cons_prefix_cons.1 hp
      exact ⟨t :: pre, List.cons_prefix_cons.2 ⟨rfl, hpre⟩, .joined t pre hb hb' ho⟩
    | apart ts hb ho =>
      obtain ⟨rfl, ⟨more, rfl⟩⟩ := List.cons_prefix_cons.1 hp
      refine ⟨pre, List.prefix_append pre more, .apart pre hb (ho.imp_right fun ho t e => ho t ?_)⟩
      rw [List.head?_append, e]
      rfl

/-- Some of the first tokens of a text, when they are written, are read as the same tokens. -/
theorem tokenizeFrom_written (h : pre <+: tokenizeFrom start xs) :
    tokenizeFrom start (written pre) = pre := by
  induction xs generalizing start pre with
  | nil =>
    rw [List.prefix_nil.1 h]
    rfl
  | cons c xs ih =>
    cases pre with
    | nil => rfl
    | cons p pre =>
      have hn : p :: pre ≠ [] := List.cons_ne_nil p pre
      obtain ⟨qs, hq, consed⟩ := (consed_tokenizeFrom c start xs).first_tokens hn h
      rw [consed.written_eq hn, tokenizeFrom, ih hq, consed.eq]

/-- The tokens of a text that ends with a token make up the text. -/
theorem written_tokenizeFrom (h : Cut xs ys) (start : Nat) :
    written (tokenizeFrom start xs) = xs := by
  obtain ⟨init, c, rfl, hb, _⟩ := h
  induction init generalizing start with
  | nil => exact (consed_tokenizeFrom c start []).written_eq (tokenizeFrom_ne_nil
      (List.mem_singleton_self c) hb start)
  | cons d init ih =>
    have some : tokenizeFrom start (d :: init ++ [c]) ≠ [] :=
      tokenizeFrom_ne_nil (List.mem_append_right _ (List.mem_singleton_self c)) hb start
    rw [List.cons_append] at some ⊢
    rw [(consed_tokenizeFrom d start _).written_eq some, ih]

/-! ## The same text elsewhere -/

/-- A token with more bytes before it. -/
def shift (n : Nat) (t : Token) : Token := { t with start := n + t.start }

/-- A character does the same to tokens everywhere. -/
lemma Consed.shift (n : Nat) (h : Consed c start ts us) :
    Consed c (n + start) (ts.map (Token.shift n)) (us.map (Token.shift n)) := by
  cases h with
  | lost hb => exact .lost hb
  | gap t ts hb => exact .gap (t.shift n) _ hb
  | joined t ts hb hp ho => exact .joined (t.shift n) _ hb hp ho
  | apart ts hb ho =>
    refine .apart _ hb (ho.imp_right fun ho t e => ?_)
    rw [List.head?_map] at e
    obtain ⟨u, hu, rfl⟩ := Option.map_eq_some_iff.1 e
    exact ho u hu

/-- A text has the same tokens everywhere, but for their places. -/
lemma tokenizeFrom_shift (n start : Nat) (xs : List Char) :
    tokenizeFrom (n + start) xs = (tokenizeFrom start xs).map (shift n) := by
  induction xs generalizing start with
  | nil => rfl
  | cons c xs ih =>
    have consed := (consed_tokenizeFrom c start xs).shift n
    rw [← ih, ← Nat.add_assoc] at consed
    exact consed.eq.symm

/-- The place of tokens does not show in their text. -/
lemma written_map_shift (n : Nat) (ts : List Token) : written (ts.map (shift n)) = written ts :=
  List.flatMap_map _ _ _

end Token

end RuleFormula
