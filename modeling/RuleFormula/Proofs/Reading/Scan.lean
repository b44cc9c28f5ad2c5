import RuleFormula.Proofs.Reading.Partition

/-!
# Tokens found in one pass

A text can be scanned from left to right: white space is passed over, a parenthesis is a token, and
any other character begins a word, which goes on up to the next white space or parenthesis. The
scanner keeps of a token where it begins and ends, and the keyword that it read there (`Mark`); the
characters are looked up in the text. It finds the tokens of `tokenize`, which keeps the characters
and knows the end and the keyword of a token by them (`scan_eq_map_mark`).
-/

namespace RuleFormula

open Text (isBlank)

namespace Token

variable {c : Char}

/-- What is kept of a token when the text itself is kept. -/
structure Mark where
  /-- The keyword that the token is, if it is one. -/
  keyword? : Option Keyword
  /-- The number of bytes before the token. -/
  start : Nat
  /-- The number of bytes up to the end of the token. -/
  stop : Nat
deriving DecidableEq, Repr

/-- The mark of a token. -/
def mark (t : Token) : Mark := ⟨t.keyword?, t.start, t.stop⟩

/-- Where a word ends that goes up to the byte `stop`, or further if the next characters belong to
it, and the characters after the word. -/
def wordEnd (stop : Nat) : List Char → Nat × List Char
  | [] => (stop, [])
  | c :: cs =>
    if isBlank c || isParenthesis c then (stop, c :: cs) else wordEnd (stop + c.utf8Size) cs

/-- The rest after a word is not longer than the characters among which it ends. -/
lemma length_wordEnd_le (stop : Nat) (cs : List Char) :
    (wordEnd stop cs).2.length ≤ cs.length := by
  induction cs generalizing stop with
  | nil => exact Nat.le_refl 0
  | cons c cs ih =>
    rw [wordEnd]
    split
    · exact Nat.le_refl _
    · exact Nat.le_succ_of_le (ih _)

/-- Scans the characters of a text that have `start` bytes of it before them. -/
def scanFrom (text : String) (start : Nat) : List Char → List Mark
  | [] => []
  | c :: cs =>
    if isBlank c then scanFrom text (start + c.utf8Size) cs
    else if isParenthesis c then
      ⟨some (if c = '(' then .leftParen else .rightParen), start, start + 1⟩ ::
        scanFrom text (start + 1) cs
    else
      let word := wordEnd (start + c.utf8Size) cs
      ⟨Keyword.ofText? (slice text start word.1).toList, start, word.1⟩ ::
        scanFrom text word.1 word.2
termination_by cs => cs.length
decreasing_by
  · exact Nat.lt_succ_self _
  · exact Nat.lt_succ_self _
  · exact Nat.lt_succ_of_le (length_wordEnd_le _ cs)

/-- The tokens that are found in one pass over a text. -/
def scan (text : String) : List Mark := scanFrom text 0 text.toList

/-! ## The same tokens -/

/-- A word takes the characters that belong to it, and no others come next. -/
lemma exists_wordEnd (stop : Nat) (cs : List Char) :
    ∃ word rest, cs = word ++ rest ∧ wordEnd stop cs = (stop + byteLength word, rest) ∧
      (∀ c ∈ word, isBlank c = false ∧ isParenthesis c = false) ∧ Bounded rest := by
  induction cs generalizing stop with
  | nil => exact ⟨[], [], rfl, rfl, List.forall_mem_nil _, nofun⟩
  | cons c cs ih =>
    rw [wordEnd]
    cases hc : isBlank c || isParenthesis c with
    | true =>
      refine ⟨[], c :: cs, rfl, rfl, List.forall_mem_nil _, fun d hd => ?_⟩
      obtain rfl := Option.some.inj hd
      exact Bool.or_eq_true_iff.1 hc
    | false =>
      obtain ⟨word, rest, rfl, e, inside, after⟩ := ih (stop + c.utf8Size)
      refine ⟨c :: word, rest, rfl, ?_,
        List.forall_mem_cons.2 ⟨Bool.or_eq_false_iff.1 hc, inside⟩, after⟩
      rw [if_neg Bool.false_ne_true, e, byteLength, Nat.add_assoc]

/-- The marks of tokens say nothing about the white space before them. -/
lemma map_mark_indent (gap : List Char) (ts : List Token) :
    (indent gap ts).map mark = ts.map mark := by
  cases ts <;> rfl

/-- A parenthesis is one byte, and the keyword that the scanner takes it for. -/
lemma mark_parenthesis (h : isParenthesis c = true) (start : Nat) :
    mark ⟨[], start, [c]⟩ =
      ⟨some (if c = '(' then .leftParen else .rightParen), start, start + 1⟩ := by
  rw [isParenthesis, Bool.or_eq_true, decide_eq_true_eq, decide_eq_true_eq] at h
  obtain rfl | rfl := h
  · rfl
  · rfl

/-- The first token of a text that begins with it, and the other tokens. -/
lemma map_mark_lexeme {xs ys : List Char} (h : IsLexeme xs ys) (start : Nat) :
    (tokenizeFrom start (xs ++ ys)).map mark =
      mark ⟨[], start, xs⟩ :: (tokenizeFrom (start + byteLength xs) ys).map mark := by
  rw [tokenizeFrom_append h.cut, h.tokenizeFrom_eq]
  rfl

/-- From any place of a text on, the scanner finds the tokens of the rest. -/
lemma scanFrom_eq {text : String} {before cs : List Char} (h : text.toList = before ++ cs) :
    scanFrom text (byteLength before) cs = (tokenizeFrom (byteLength before) cs).map mark := by
  induction hn : cs.length using Nat.strong_induction_on generalizing before cs with
  | h n ih =>
  cases cs with
  | nil =>
    rw [scanFrom]
    rfl
  | cons c cs =>
    -- the scanner goes on behind the lexeme `c :: word`
    have next (word rest : List Char) (hcs : cs = word ++ rest) :
        scanFrom text (byteLength before + byteLength (c :: word)) rest =
          (tokenizeFrom (byteLength before + byteLength (c :: word)) rest).map mark := by
      subst hcs
      rw [← byteLength_append]
      refine ih rest.length ?_ ?_ rfl
      · rw [← hn, List.length_cons, List.length_append]
        omega
      · rw [h, List.append_assoc, List.cons_append]
    rw [scanFrom]
    cases hb : isBlank c with
    | true =>
      rw [if_pos rfl, tokenizeFrom_blank hb, map_mark_indent]
      exact next [] cs rfl
    | false =>
      rw [if_neg Bool.false_ne_true]
      cases hp : isParenthesis c with
      | true =>
        have one : byteLength [c] = 1 := by
          rw [isParenthesis, Bool.or_eq_true, decide_eq_true_eq, decide_eq_true_eq] at hp
          obtain rfl | rfl := hp <;> rfl
        have later := next [] cs rfl
        rw [one] at later
        have first := map_mark_lexeme (.parenthesis cs hp) (byteLength before)
        rw [one, mark_parenthesis hp] at first
        rw [if_pos rfl, later]
        exact first.symm
      | false =>
        obtain ⟨word, rest, hcs, e, inside, after⟩ :=
          exists_wordEnd (byteLength before + c.utf8Size) cs
        have lexeme : IsLexeme (c :: word) rest :=
          .word (List.cons_ne_nil c word) (List.forall_mem_cons.2 ⟨⟨hb, hp⟩, inside⟩) after
        have part : slice text (byteLength before) (byteLength before + byteLength (c :: word)) =
            String.ofList (c :: word) := slice_eq (h.trans (congrArg (before ++ c :: ·) hcs))
        have stop : byteLength before + c.utf8Size + byteLength word =
            byteLength before + byteLength (c :: word) := Nat.add_assoc _ _ _
        rw [if_neg Bool.false_ne_true, e, stop]
        dsimp only
        rw [part, String.toList_ofList, next word rest hcs, hcs, ← List.cons_append,
          map_mark_lexeme lexeme]
        rfl

/-- One pass over a text finds the tokens that it is read as. -/
theorem scan_eq_map_mark (text : String) : scan text = (tokenize text.toList).map mark :=
  @scanFrom_eq text [] text.toList rfl

end Token

end RuleFormula
