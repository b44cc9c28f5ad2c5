import Mathlib.Data.String.Basic
import RuleFormula.Proofs.Reading.Tokens

/-!
# Texts divided into lexemes

A lexeme is a parenthesis, or a run of other characters that are no white space and with which the
text after it does not go on. `Divided` says that tokens are the lexemes of a text, one after the
other, with white space only between them. A text can be divided in one way, and its tokens are this
way (`divided_tokenizeFrom`, `Divided.eq`). So a stretch of the tokens is found again in its own
text (`Divided.stretch`), and a text keeps its tokens where another one is put after it that goes on
with none of its words (`tokenizeFrom_append_bounded`).
-/

namespace RuleFormula

open Text (isBlank)

/-! ## Numbers of bytes -/

/-- The bytes of a text are those of its parts together. -/
@[simp] lemma byteLength_append (xs ys : List Char) :
    byteLength (xs ++ ys) = byteLength xs + byteLength ys := by
  induction xs with
  | nil => exact (Nat.zero_add _).symm
  | cons c xs ih => rw [List.cons_append, byteLength, byteLength, ih, Nat.add_assoc]

/-- A text with characters has bytes. -/
lemma byteLength_pos {xs : List Char} (h : xs ≠ []) : 0 < byteLength xs := by
  obtain ⟨c, xs, rfl⟩ := List.exists_cons_of_ne_nil h
  exact Nat.lt_of_lt_of_le c.utf8Size_pos (Nat.le_add_right _ _)

/-- The number of bytes is the one that the library counts. -/
lemma byteLength_eq_utf8Len (xs : List Char) : byteLength xs = String.utf8Len xs := by
  induction xs with
  | nil => rfl
  | cons c xs ih => rw [byteLength, ih, Nat.add_comm, String.utf8Len]

/-- The number of bytes of a text is the one that its encoding has. -/
lemma byteLength_toList (s : String) : byteLength s.toList = s.utf8ByteSize := by
  rw [byteLength_eq_utf8Len, ← String.utf8ByteSize_ofList, String.ofList_toList]

namespace Token

variable {c : Char} {start : Nat} {gap text xs ys cs : List Char} {t u : Token}
  {ts us vs : List Token}

/-! ## White space before tokens -/

/-- Characters that are white space, all of them. -/
def AllBlank (cs : List Char) : Prop := ∀ c ∈ cs, isBlank c = true

/-- White space more in front of the first token. -/
def indent (gap : List Char) : List Token → List Token
  | [] => []
  | t :: ts => { t with gap := gap ++ t.gap } :: ts

/-- No white space more changes nothing. -/
lemma indent_nil (ts : List Token) : indent [] ts = ts := by
  cases ts <;> rfl

/-- White space makes no token. -/
lemma indent_eq_nil_iff : indent gap ts = [] ↔ ts = [] := by
  cases ts with
  | nil => exact ⟨fun _ => rfl, fun _ => rfl⟩
  | cons t ts => exact ⟨nofun, nofun⟩

/-- White space before a text stands before its first token. -/
lemma tokenizeFrom_blank_append (h : AllBlank gap) (start : Nat) (xs : List Char) :
    tokenizeFrom start (gap ++ xs) = indent gap (tokenizeFrom (start + byteLength gap) xs) := by
  induction gap generalizing start with
  | nil => exact (indent_nil _).symm
  | cons c gap ih =>
    obtain ⟨hc, hgap⟩ := List.forall_mem_cons.1 h
    rw [List.cons_append, tokenizeFrom, ih hgap, byteLength, Nat.add_assoc]
    generalize tokenizeFrom (start + (c.utf8Size + byteLength gap)) xs = ts
    cases ts with
    | nil => exact (Consed.lost hc).eq.symm
    | cons t ts => exact (Consed.gap _ ts hc).eq.symm

/-- A character of white space stands before the first token of the rest. -/
lemma tokenizeFrom_blank (h : isBlank c = true) (start : Nat) (xs : List Char) :
    tokenizeFrom start (c :: xs) = indent [c] (tokenizeFrom (start + c.utf8Size) xs) :=
  tokenizeFrom_blank_append (List.forall_mem_singleton.2 h) start xs

/-- White space alone has no tokens. -/
lemma tokenizeFrom_of_blank (h : AllBlank cs) (start : Nat) : tokenizeFrom start cs = [] := by
  rw [← List.append_nil cs, tokenizeFrom_blank_append h]
  rfl

/-! ## Lexemes -/

/-- The characters of one token, where other characters come after it: a parenthesis, or a run of
characters that are neither parentheses nor white space and that does not go on. -/
inductive IsLexeme : List Char → List Char → Prop
  | parenthesis {c : Char} (ys : List Char) : isParenthesis c = true → IsLexeme [c] ys
  | word {xs ys : List Char} : xs ≠ [] →
    (∀ c ∈ xs, isBlank c = false ∧ isParenthesis c = false) → Bounded ys → IsLexeme xs ys

/-- A parenthesis is no white space. -/
lemma not_isBlank_of_isParenthesis (h : isParenthesis c = true) : isBlank c = false := by
  rw [isParenthesis, Bool.or_eq_true, decide_eq_true_eq, decide_eq_true_eq] at h
  obtain rfl | rfl := h
  · rfl
  · rfl

/-- A lexeme has characters. -/
lemma IsLexeme.ne_nil (h : IsLexeme xs ys) : xs ≠ [] := by
  cases h with
  | parenthesis _ _ => exact List.cons_ne_nil _ _
  | word hn _ _ => exact hn

/-- There is no white space in a lexeme. -/
lemma IsLexeme.not_isBlank (h : IsLexeme xs ys) : ∀ c ∈ xs, isBlank c = false := by
  cases h with
  | parenthesis _ hp => exact List.forall_mem_singleton.2 (not_isBlank_of_isParenthesis hp)
  | word _ hw _ => exact fun c hc => (hw c hc).1

/-- A lexeme in which there is a parenthesis is this parenthesis. -/
lemma IsLexeme.eq_singleton (h : IsLexeme xs ys) (hc : c ∈ xs) (hp : isParenthesis c = true) :
    xs = [c] := by
  cases h with
  | parenthesis _ _ =>
    obtain rfl := List.mem_singleton.1 hc
    rfl
  | word _ hw _ =>
    rw [(hw c hc).2] at hp
    cases hp

/-- The text may be cut off behind a lexeme. -/
lemma IsLexeme.cut (h : IsLexeme xs ys) : Cut xs ys := by
  have hn := h.ne_nil
  refine ⟨xs.dropLast, xs.getLast hn, (List.dropLast_append_getLast hn).symm,
    h.not_isBlank _ (List.getLast_mem hn), ?_⟩
  cases h with
  | parenthesis _ hp => exact .inl hp
  | word _ _ hy => exact .inr hy

/-- A word alone is one token. -/
lemma tokenizeFrom_word (hn : xs ≠ [])
    (hw : ∀ c ∈ xs, isBlank c = false ∧ isParenthesis c = false) (start : Nat) :
    tokenizeFrom start xs = [⟨[], start, xs⟩] := by
  induction xs generalizing start with
  | nil => exact absurd rfl hn
  | cons c xs ih =>
    obtain ⟨⟨hb, hp⟩, hw⟩ := List.forall_mem_cons.1 hw
    cases xs with
    | nil => exact (Consed.apart [] hb (.inr nofun)).eq.symm
    | cons d xs =>
      have later := ih (List.cons_ne_nil d xs) hw (start + c.utf8Size)
      have word : isOpen ⟨[], start + c.utf8Size, d :: xs⟩ = true := by
        rw [isOpen, List.all_cons, (hw d List.mem_cons_self).2]
        rfl
      rw [tokenizeFrom, later]
      exact (Consed.joined _ [] hb hp word).eq.symm

/-- A lexeme is one token. -/
lemma IsLexeme.tokenizeFrom_eq (h : IsLexeme xs ys) (start : Nat) :
    tokenizeFrom start xs = [⟨[], start, xs⟩] := by
  cases h with
  | parenthesis _ hp =>
    exact (Consed.apart [] (not_isBlank_of_isParenthesis hp) (.inl hp)).eq.symm
  | word hn hw _ => exact tokenizeFrom_word hn hw start

/-! ## Dividing a text -/

/-- The tokens are the lexemes of a text that has `start` bytes before it, each after the white
space that it knows. White space only comes after the last one. -/
inductive Divided : Nat → List Char → List Token → Prop
  | nil {start : Nat} {cs : List Char} : AllBlank cs → Divided start cs []
  | cons {start : Nat} {gap text cs : List Char} {ts : List Token} :
    AllBlank gap → IsLexeme text cs → Divided (start + byteLength gap + byteLength text) cs ts →
    Divided start (gap ++ (text ++ cs)) (⟨gap, start + byteLength gap, text⟩ :: ts)

/-- Where no word takes a character in front of it, the text begins with no word. -/
lemma Divided.bounded (h : Divided start cs ts)
    (ho : ∀ t, ts.head? = some t → t.isOpen = false) : Bounded cs := by
  intro c hc
  cases h with
  | nil hb => exact .inl (hb c (List.mem_of_head? hc))
  | @cons _ gap text cs _ hg hl _ =>
    have closed := ho _ rfl
    cases gap with
    | cons d gap => exact .inl (Option.some.inj hc ▸ hg d List.mem_cons_self)
    | nil =>
      cases hl with
      | parenthesis _ hp => exact .inr (Option.some.inj hc ▸ hp)
      | word hn hw _ =>
        obtain ⟨d, text, rfl⟩ := List.exists_cons_of_ne_nil hn
        rw [isOpen, List.all_cons, (hw d List.mem_cons_self).2] at closed
        cases closed

/-- A character more before a text that is divided. -/
lemma Divided.consed (h : Divided (start + c.utf8Size) cs ts) (hc : Consed c start ts us) :
    Divided start (c :: cs) us := by
  cases hc with
  | lost hb =>
    cases h with
    | nil hcs => exact .nil (List.forall_mem_cons.2 ⟨hb, hcs⟩)
  | gap t ts hb =>
    cases h with
    | @cons _ gap text cs _ hg hl h =>
      have place : start + c.utf8Size + byteLength gap = start + byteLength (c :: gap) :=
        Nat.add_assoc _ _ _
      rw [place] at h ⊢
      exact .cons (List.forall_mem_cons.2 ⟨hb, hg⟩) hl h
  | joined t ts hb hp ho =>
    cases h with
    | @cons _ gap text cs _ hg hl h =>
      obtain rfl : gap = [] := isOpen_gap ho
      cases hl with
      | @parenthesis d _ hd =>
        -- a parenthesis takes no character in front of it
        rw [isOpen, List.all_cons, hd] at ho
        cases ho
      | word _ hw hy =>
        have place : start + byteLength [] + byteLength (c :: text) =
            start + c.utf8Size + byteLength [] + byteLength text := by
          simp only [byteLength, Nat.add_zero, Nat.add_assoc]
        have lexeme : IsLexeme (c :: text) cs :=
          .word (List.cons_ne_nil c text) (List.forall_mem_cons.2 ⟨⟨hb, hp⟩, hw⟩) hy
        exact @Divided.cons start [] _ _ _ hg lexeme (place ▸ h)
  | apart ts hb ho =>
    have lexeme : IsLexeme [c] cs := by
      cases hp : isParenthesis c with
      | true => exact .parenthesis cs hp
      | false =>
        rw [hp] at ho
        exact .word (List.cons_ne_nil c []) (List.forall_mem_singleton.2 ⟨hb, hp⟩)
          (h.bounded (ho.resolve_left Bool.false_ne_true))
    exact @Divided.cons start [] _ _ _ (List.forall_mem_nil _) lexeme h

/-- The tokens of a text are its lexemes. -/
theorem divided_tokenizeFrom (start : Nat) (cs : List Char) :
    Divided start cs (tokenizeFrom start cs) := by
  induction cs generalizing start with
  | nil => exact .nil (List.forall_mem_nil _)
  | cons c cs ih => exact (ih (start + c.utf8Size)).consed (consed_tokenizeFrom c start cs)

/-- The tokens of a whole text are its lexemes. -/
lemma divided_tokenize (cs : List Char) : Divided 0 cs (tokenize cs) := divided_tokenizeFrom 0 cs

/-- There is no other way to divide a text. -/
theorem Divided.eq (h : Divided start cs ts) : tokenizeFrom start cs = ts := by
  induction h with
  | nil hb => exact tokenizeFrom_of_blank hb _
  | @cons start gap text cs ts hg hl _ ih =>
    rw [tokenizeFrom_blank_append hg, tokenizeFrom_append hl.cut, hl.tokenizeFrom_eq, ih,
      List.singleton_append, indent, List.append_nil]

/-! ## Parts of a text -/

/-- Each token is a lexeme of the text. -/
lemma Divided.isLexeme (h : Divided start cs ts) :
    ∀ t ∈ ts, ∃ rest, IsLexeme t.text rest := by
  induction h with
  | nil _ => exact List.forall_mem_nil _
  | cons _ hl _ ih => exact List.forall_mem_cons.2 ⟨⟨_, hl⟩, ih⟩

/-- Each token has characters. -/
lemma Divided.text_ne_nil (h : Divided start cs ts) : ∀ t ∈ ts, t.text ≠ [] := by
  intro t ht
  obtain ⟨_, hl⟩ := h.isLexeme t ht
  exact hl.ne_nil

/-- Before each token stands white space only. -/
lemma Divided.allBlank_gap (h : Divided start cs ts) : ∀ t ∈ ts, AllBlank t.gap := by
  induction h with
  | nil _ => exact List.forall_mem_nil _
  | cons hg _ _ ih => exact List.forall_mem_cons.2 ⟨hg, ih⟩

/-- Where the first token stands. -/
lemma Divided.of_cons (h : Divided start cs (t :: ts)) :
    t.start = start + byteLength t.gap ∧ AllBlank t.gap ∧
      ∃ rest, cs = t.gap ++ (t.text ++ rest) ∧ IsLexeme t.text rest ∧ Divided t.stop rest ts := by
  cases h with
  | cons hg hl h => exact ⟨rfl, hg, _, rfl, hl, h⟩

/-- Later tokens divide what comes after the first ones. -/
lemma Divided.of_append (h : Divided start cs (us ++ ts)) :
    ∃ rest, cs = written us ++ rest ∧ Divided (start + byteLength (written us)) rest ts := by
  induction us generalizing start cs with
  | nil => exact ⟨cs, rfl, h⟩
  | cons u us ih =>
    obtain ⟨hs, _, rest, rfl, _, later⟩ := h.of_cons
    obtain ⟨rest, rfl, last⟩ := ih later
    refine ⟨rest, ?_, ?_⟩
    · rw [written_cons, List.append_assoc, List.append_assoc]
    · have place : u.stop + byteLength (written us) = start + byteLength (written (u :: us)) := by
        rw [written_cons, byteLength_append, byteLength_append, stop, hs]
        simp only [Nat.add_assoc]
      exact place ▸ last

/-- Where a token stands that comes after others. -/
lemma Divided.of_middle (h : Divided start cs (us ++ t :: ts)) :
    ∃ rest, cs = written us ++ t.gap ++ (t.text ++ rest) ∧
      t.start = start + byteLength (written us ++ t.gap) ∧ Divided t.stop rest ts := by
  obtain ⟨_, rfl, first⟩ := h.of_append
  obtain ⟨hs, _, rest, rfl, _, later⟩ := first.of_cons
  refine ⟨rest, (List.append_assoc _ _ _).symm, ?_, later⟩
  rw [hs, byteLength_append, Nat.add_assoc]

/-- A text is made of its tokens, with white space after the last one. -/
lemma Divided.exists_blank (h : Divided start cs ts) :
    ∃ rest, AllBlank rest ∧ cs = written ts ++ rest := by
  rw [← List.append_nil ts] at h
  obtain ⟨rest, rfl, after⟩ := h.of_append
  cases after with
  | nil hb => exact ⟨rest, hb, rfl⟩

/-- Only no tokens at all are written as nothing. -/
lemma eq_nil_of_written (h : ∀ t ∈ ts, t.text ≠ []) (hw : written ts = []) : ts = [] := by
  cases ts with
  | nil => rfl
  | cons t ts =>
    rw [written_cons, List.append_eq_nil_iff, List.append_eq_nil_iff] at hw
    exact absurd hw.1.2 (h t List.mem_cons_self)

/-- Tokens are written one after the other. -/
lemma written_append (us ts : List Token) : written (us ++ ts) = written us ++ written ts :=
  List.flatMap_append

/-- The last token is written after the others, behind its white space. -/
lemma written_concat (us : List Token) (u : Token) :
    written (us ++ [u]) = written us ++ u.gap ++ u.text := by
  have last : written [u] = u.gap ++ u.text := List.flatMap_singleton _ _
  rw [written_append, last, List.append_assoc]

/-- The tokens after one, cut off after some of them. -/
lemma append_cons_take_drop (us : List Token) (t : Token) (vs : List Token) (n : Nat) :
    us ++ t :: vs = us ++ t :: vs.take n ++ vs.drop n := by
  rw [List.append_assoc, List.cons_append, List.take_append_drop]

/-- The last one of the first tokens ends where these tokens end. -/
lemma Divided.stop_getLast (h : Divided start cs (us ++ ts)) (hu : us.getLast? = some u) :
    u.stop = start + byteLength (written us) := by
  obtain ⟨init, rfl⟩ := List.getLast?_eq_some_iff.1 hu
  rw [List.append_assoc] at h
  obtain ⟨rest, rfl, last⟩ := h.of_append
  obtain ⟨hs, _⟩ := last.of_cons
  rw [stop, hs, written_concat]
  simp only [byteLength_append, Nat.add_assoc]

/-- Later tokens do not begin earlier. -/
lemma Divided.le_start (h : Divided start cs ts) : ∀ t ∈ ts, start ≤ t.start := by
  induction h with
  | nil _ => exact List.forall_mem_nil _
  | cons _ _ _ ih =>
    refine List.forall_mem_cons.2 ⟨Nat.le_add_right _ _, fun t ht => ?_⟩
    have := ih t ht
    omega

/-- The tokens of a stretch, from the first character of its first token on, are those of its own
text. -/
theorem Divided.stretch (h : Divided start cs (us ++ t :: vs ++ ts)) :
    tokenizeFrom t.start (t.text ++ written vs) = { t with gap := [] } :: vs := by
  rw [List.append_assoc] at h
  obtain ⟨rest, rfl, first⟩ := h.of_append
  obtain ⟨_, _, rest, rfl, hl, later⟩ := first.of_cons
  have alone : Divided t.start (t.text ++ rest) ({ t with gap := [] } :: (vs ++ ts)) :=
    @Divided.cons t.start [] _ _ _ (List.forall_mem_nil _) hl later
  have begins : { t with gap := [] } :: vs <+: tokenizeFrom t.start (t.text ++ rest) := by
    rw [alone.eq]
    exact List.prefix_append _ ts
  have again := tokenizeFrom_written begins
  rwa [written_cons] at again

/-! ## Texts put together -/

/-- No word goes on in a text that begins with one in which none does. -/
lemma Bounded.append (hx : Bounded xs) (hy : Bounded ys) : Bounded (xs ++ ys) := by
  cases xs with
  | nil => exact hy
  | cons c xs => exact hx

/-- A lexeme stays one when more text comes behind, with which no word goes on. -/
lemma IsLexeme.before (h : IsLexeme text cs) (hy : Bounded ys) : IsLexeme text (cs ++ ys) := by
  cases h with
  | parenthesis _ hp => exact .parenthesis _ hp
  | word hn hw hb => exact .word hn hw (hb.append hy)

/-- A text has its tokens also where another text comes after it that goes on with no word. The
white space at its end stands before the first token of the other text. -/
theorem tokenizeFrom_append_bounded (hy : Bounded ys) (start : Nat) (xs : List Char) :
    ∃ gap, AllBlank gap ∧ tokenizeFrom start (xs ++ ys) =
      tokenizeFrom start xs ++ indent gap (tokenizeFrom (start + byteLength xs) ys) := by
  have divided := divided_tokenizeFrom start xs
  generalize tokenizeFrom start xs = ts at divided ⊢
  induction divided with
  | @nil start cs hb => exact ⟨cs, hb, tokenizeFrom_blank_append hb start ys⟩
  | @cons start gap text cs ts hg hl _ ih =>
    obtain ⟨gap', hg', e⟩ := ih
    refine ⟨gap', hg', ?_⟩
    have place : start + byteLength (gap ++ (text ++ cs)) =
        start + byteLength gap + byteLength text + byteLength cs := by
      simp only [byteLength_append, Nat.add_assoc]
    have lexeme := hl.before hy
    rw [List.append_assoc, List.append_assoc, tokenizeFrom_blank_append hg,
      tokenizeFrom_append lexeme.cut, lexeme.tokenizeFrom_eq, e, place, List.singleton_append,
      indent, List.append_nil, List.cons_append]

end Token

end RuleFormula
