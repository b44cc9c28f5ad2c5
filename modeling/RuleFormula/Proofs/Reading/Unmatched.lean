import RuleFormula.Proofs.Reading.Brackets
import RuleFormula.Proofs.Reading.Elsewhere
import RuleFormula.Proofs.Reading.Failure
import RuleFormula.Proofs.Reading.Partition

/-!
# Unmatched parentheses

Where no name holds a parenthesis, what is derived is balanced (`Derives.depth_written`), so that a
closing parenthesis after a whole expression has no partner. An opening one is reported as unmatched
wherever something else than a closing one comes after its expression. It has no partner then
either, except where something that does not belong to the expression is left before its partner
(`read_unmatchedParenthesis`).
-/

namespace RuleFormula

open Token

variable {c : Char} {n : Nat} {xs ys before after : List Char}

/-! ## What is derived -/

namespace Reading

variable {lookahead : Lookahead} {resolve : String → Option Formula} {s : Symbol} {e : Tree}
  {t : Token} {ts rest : List Token} {p : Formula} {i start : Nat} {text : String}

variable (resolve) in
/-- The resolver accepts no name with a parenthesis in it. -/
def Quiet : Prop := ∀ name p, resolve name = some p → ∀ c ∈ name.toList, isParenthesis c = false

/-- White space opens and closes nothing. -/
lemma depth_blank_append (h : AllBlank xs) : depth n (xs ++ ys) = depth n ys := by
  refine depth_append_other fun c hc => ?_
  by_contra hp
  have visible := not_isBlank_of_isParenthesis (Bool.not_eq_false _ ▸ hp)
  rw [h c hc] at visible
  cases visible

/-- The white space before a token does not matter to what is open. -/
lemma depth_written_cons (hg : AllBlank t.gap) :
    depth n (written (t :: ts)) = depth n (t.text ++ written ts) := by
  rw [written_cons, List.append_assoc, depth_blank_append hg]

/-- There are no parentheses in other keywords. -/
lemma not_isParenthesis_keyword {k : Keyword} (h : k ≠ .leftParen ∧ k ≠ .rightParen) :
    ∀ c ∈ k.text.toList, isParenthesis c = false := by
  have none : k.text.toList.any isParenthesis = false := by
    cases k with
    | leftParen => exact absurd rfl h.1
    | rightParen => exact absurd rfl h.2
    | _ => rfl
  exact fun c hc => Bool.eq_false_iff.2 (List.any_eq_false.1 none c hc)

/-- A keyword that is no parenthesis opens and closes nothing. -/
lemma depth_written_keyword {k : Keyword} (hg : AllBlank t.gap) (hk : t.keyword? = some k)
    (other : k ≠ .leftParen ∧ k ≠ .rightParen) :
    depth n (written (t :: ts)) = depth n (written ts) := by
  rw [depth_written_cons hg, Keyword.ofText?_eq_some_iff.1 hk,
    depth_append_other (not_isParenthesis_keyword other)]

/-- Where no name holds a parenthesis, as many are open after what is derived as are before it. -/
theorem Derives.depth_written (quiet : Quiet resolve)
    (h : Derives lookahead resolve s ts e rest) :
    (∀ t ∈ ts, AllBlank t.gap) → ∀ n, depth n (written ts) = depth n (written rest) := by
  induction h with
  | top hk | bot hk =>
    exact fun hg n => depth_written_keyword (hg _ List.mem_cons_self) hk ⟨nofun, nofun⟩
  | @parentheses t u ts rest _ hk hu inner ih =>
    intro hg n
    obtain ⟨hgt, hg⟩ := List.forall_mem_cons.1 hg
    have hgu := hg u (inner.suffix.subset List.mem_cons_self)
    calc depth n (written (t :: ts))
      _ = depth (n + 1) (written ts) := by
        rw [depth_written_cons hgt, Keyword.ofText?_eq_some_iff.1 hk]
        rfl
      _ = depth (n + 1) (written (u :: rest)) := ih hg (n + 1)
      _ = depth n (written rest) := by
        rw [depth_written_cons hgu, Keyword.ofText?_eq_some_iff.1 hu]
        rfl
  | not hk _ ih =>
    intro hg n
    obtain ⟨hgt, hg⟩ := List.forall_mem_cons.1 hg
    rw [depth_written_keyword hgt hk ⟨nofun, nofun⟩, ih hg]
  | @name t ts m p hk name =>
    intro hg n
    have span : t.text ++ written ts = spanText t.text ts m ++ written (ts.drop m) := by
      rw [spanText, List.append_assoc, ← written_append, List.take_append_drop]
    have silent := quiet _ _ name.accepted
    rw [String.toList_ofList] at silent
    rw [depth_written_cons (hg t List.mem_cons_self), span, depth_append_other silent]
  | chain first _ ih ih' =>
    intro hg n
    rw [ih hg, ih' fun t ht => hg t (first.suffix.subset ht)]
  | done ts => exact fun _ _ => rfl
  | @more c _ _ _ _ _ _ hk next _ ih ih' =>
    intro hg n
    obtain ⟨hgt, hg⟩ := List.forall_mem_cons.1 hg
    rw [depth_written_keyword hgt hk (by cases c <;> decide), ih hg,
      ih' fun t ht => hg t (next.suffix.subset ht)]

/-- What is derived by itself is balanced. -/
lemma Derives.balanced (quiet : Quiet resolve) (h : Derives lookahead resolve s ts e [])
    (hg : ∀ t ∈ ts, AllBlank t.gap) : Balanced (written ts) :=
  h.depth_written quiet hg 0

/-- A text that is read as a formula is balanced. -/
lemma balanced_of_read (quiet : Quiet resolve)
    (h : Formula.read lookahead resolve text = .ok p) : Balanced text.toList := by
  obtain ⟨e, derived, _⟩ := read_eq_ok_iff.1 h
  have divided := divided_tokenize text.toList
  obtain ⟨blank, hb, whole⟩ := divided.exists_blank
  rw [whole, (derived.balanced quiet divided.allBlank_gap).append_iff]
  exact List.append_nil blank ▸ depth_blank_append hb

/-! ## Parentheses that are reported -/

/-- The opening parenthesis at which an error is: after it comes an expression, and after that no
closing parenthesis. -/
lemma Fails.exists_unclosed (h : Fails lookahead resolve s ts (.unmatchedParenthesis i)) :
    ∃ us t vs e rest, ts = us ++ t :: vs ∧ t.keyword? = some .leftParen ∧ t.start = i ∧
      Derives lookahead resolve (.chain .or) vs e rest ∧
      rest.head?.bind keyword? ≠ some .rightParen := by
  generalize he : ParseError.unmatchedParenthesis i = err at h
  induction h with
  | here h => cases h <;> cases he
  | unclosed hk inner _ hc =>
    cases he
    exact ⟨[], _, _, _, _, rfl, hk, rfl, inner, hc⟩
  | @inside t _ _ _ _ ih | @not t _ _ _ _ ih | @next _ t _ _ _ _ ih =>
    obtain ⟨us, u, vs, e, rest, rfl, place⟩ := ih he
    exact ⟨t :: us, u, vs, e, rest, rfl, place⟩
  | first _ ih => exact ih he
  | further first _ ih =>
    obtain ⟨us, u, vs, e, rest, rfl, place⟩ := ih he
    obtain ⟨before, rfl⟩ := first.suffix
    exact ⟨before ++ us, u, vs, e, rest, (List.append_assoc _ _ _).symm, place⟩
  | @later _ t _ _ _ _ _ next _ ih =>
    obtain ⟨us, u, vs, e, rest, rfl, place⟩ := ih he
    obtain ⟨before, rfl⟩ := next.suffix
    exact ⟨t :: (before ++ us), u, vs, e, rest, congrArg _ (List.append_assoc _ _ _).symm, place⟩

/-- Something stands between an expression and a closing parenthesis that is not the next token. -/
lemma tokenize_ne_nil_of_unclosed {left later : List Char}
    (h : Divided start (left ++ ')' :: later) ts)
    (hc : ts.head?.bind keyword? ≠ some .rightParen) : tokenize left ≠ [] := by
  intro e
  have divided := divided_tokenize left
  rw [e] at divided
  cases divided with
  | nil hb =>
    obtain ⟨start', tokens⟩ :=
      tokenizeFrom_keyword_append .rightParen later (.inr (.inr rfl)) (start + byteLength left)
    have same := h.eq
    rw [tokenizeFrom_blank_append hb] at same
    refine hc ?_
    rw [← same]
    exact congrArg (fun us => (indent left us).head?.bind keyword?) tokens

variable (lookahead resolve) in
/-- An expression is read after an opening parenthesis, and something else is left before the
closing one that is its partner. -/
def LeftInside (after : List Char) : Prop :=
  ∃ inner left later p, after = inner ++ (left ++ ')' :: later) ∧
    Formula.read lookahead resolve (String.ofList inner) = .ok p ∧
    Balanced left ∧ tokenize left ≠ []

/-- Where an expression comes after an opening parenthesis and no closing one next to it, the
partner comes after something else that is left, if there is one. -/
lemma hasPartner_unclosed_iff (quiet : Quiet resolve)
    (hd : Divided start after ts) (h : Derives lookahead resolve (.chain .or) ts e rest)
    (hc : rest.head?.bind keyword? ≠ some .rightParen) :
    HasPartner (before ++ '(' :: after) (byteLength before) ↔
      LeftInside lookahead resolve after := by
  rw [hasPartner_left_iff]
  constructor
  · rintro ⟨inner, later, e', hi⟩
    obtain ⟨us, rfl, alone⟩ := h.alone
    have blanks := hd.allBlank_gap
    have again := tokenizeFrom_written (hd.eq ▸ List.prefix_append us rest)
    obtain ⟨after', rfl, last⟩ := hd.of_append
    have balanced := alone.balanced quiet fun t ht => blanks t (List.mem_append_left rest ht)
    -- the expression ends before the partner, since it is balanced
    obtain ⟨mid, short⟩ | ⟨left, rfl, rfl⟩ := append_eq_append_cons e'
    · rw [short] at balanced
      exact absurd balanced hi.not_append_right
    · rw [← again] at alone
      exact ⟨_, left, later, _, rfl, read_of_derives_from alone, balanced.append_iff.1 hi,
        tokenize_ne_nil_of_unclosed last hc⟩
  · rintro ⟨inner, left, later, p, rfl, read, hl, _⟩
    have hi := balanced_of_read quiet read
    rw [String.toList_ofList] at hi
    exact ⟨inner ++ left, later, (List.append_assoc _ _ _).symm, hi.append_iff.2 hl⟩

/-- A closing parenthesis after a balanced text has no partner. -/
lemma not_hasPartner_right (h : Balanced before) :
    ¬ HasPartner (before ++ ')' :: after) (byteLength before) := by
  rw [hasPartner_right_iff]
  rintro ⟨rest, inner, rfl, hi⟩
  exact hi.not_append_left h

/-- Where a text is cut at a token that is a parenthesis. -/
lemma split_at_parenthesis {k : Keyword} {us vs : List Token} (hk : t.keyword? = some k)
    (hc : k.text.toList = [c]) (hd : Divided 0 text.toList (us ++ t :: vs)) :
    ∃ after, text.toList = written us ++ t.gap ++ c :: after ∧
      byteLength (written us ++ t.gap) = t.start ∧ Divided t.stop after vs := by
  obtain ⟨after, whole, place, later⟩ := hd.of_middle
  rw [Keyword.ofText?_eq_some_iff.1 hk, hc] at whole
  exact ⟨after, whole, (place.trans (Nat.zero_add _)).symm, later⟩

/-- The opening parenthesis is reported whose expression does not end with a closing one, or the
closing one that comes after a whole expression. -/
lemma reported_cases (quiet : Quiet resolve)
    (h : Formula.read lookahead resolve text = .error (.unmatchedParenthesis i)) :
    ∃ before c after, text.toList = before ++ c :: after ∧ byteLength before = i ∧
      ((c = '(' ∧ (HasPartner text.toList i ↔ LeftInside lookahead resolve after)) ∨
        (c = ')' ∧ ¬ HasPartner text.toList i)) := by
  have divided := divided_tokenize text.toList
  have refused := wholeOf_of_read_eq_error h nofun
  obtain fails | ⟨e, t, rest, derived, _, found⟩ := wholeOf_eq_error_iff.1 refused
  · obtain ⟨us, t, vs, e, rest, tokens, hk, rfl, inner, hc⟩ := fails.exists_unclosed
    rw [tokens] at divided
    obtain ⟨after, whole, place, later⟩ := split_at_parenthesis (c := '(') hk rfl divided
    refine ⟨_, '(', after, whole, place, .inl ⟨rfl, ?_⟩⟩
    rw [whole, ← place]
    exact hasPartner_unclosed_iff quiet later inner hc
  · unfold leftOver at found
    split at found
    next hk =>
      cases found
      obtain ⟨us, tokens, alone⟩ := derived.alone
      rw [tokens] at divided
      have blanks := divided.allBlank_gap
      obtain ⟨after, whole, place, _⟩ := split_at_parenthesis (c := ')') hk rfl divided
      refine ⟨_, ')', after, whole, place, .inr ⟨rfl, ?_⟩⟩
      rw [whole, ← place]
      refine not_hasPartner_right ?_
      have first := alone.balanced quiet fun u hu => blanks u (List.mem_append_left _ hu)
      rw [first.append_iff, ← List.append_nil t.gap]
      exact depth_blank_append (blanks t (List.mem_append_right us List.mem_cons_self))
    next => cases found

/-- Where a parenthesis is reported as unmatched there is one. It has no partner, except where it is
an opening one after which an expression is read and something else is left before the partner.
Where it has no partner the text is not balanced. No name holds a parenthesis here. -/
theorem read_unmatchedParenthesis (quiet : Quiet resolve)
    (h : Formula.read lookahead resolve text = .error (.unmatchedParenthesis i)) :
    ∃ before c after, text.toList = before ++ c :: after ∧ byteLength before = i ∧
      isParenthesis c = true ∧
      (HasPartner text.toList i ↔ c = '(' ∧ LeftInside lookahead resolve after) ∧
      (¬ HasPartner text.toList i → ¬ Balanced text.toList) := by
  obtain ⟨before, c, after, whole, rfl, place⟩ := reported_cases quiet h
  have unbalanced (hp : isParenthesis c = true)
      (alone : ¬ HasPartner text.toList (byteLength before)) : ¬ Balanced text.toList := by
    rw [whole] at alone ⊢
    exact fun balanced => alone (balanced.hasPartner hp)
  obtain ⟨rfl, partner⟩ | ⟨rfl, alone⟩ := place
  · refine ⟨before, '(', after, whole, rfl, rfl, ?_, unbalanced rfl⟩
    rw [partner]
    exact ⟨fun left => ⟨rfl, left⟩, fun left => left.2⟩
  · refine ⟨before, ')', after, whole, rfl, rfl, ?_, unbalanced rfl⟩
    exact ⟨fun partner => absurd partner alone, fun left => absurd left.1 (by decide)⟩

/-- The names of atoms hold no parenthesis where no name in the list does. -/
lemma quiet_of_names {A : List Atom} (h : (A.map (·.name)).Nodup)
    (quiet : ∀ a ∈ A, ∀ c ∈ a.name.toList, isParenthesis c = false) :
    Quiet (resolveNames (A.map .atom)) := by
  intro name p found
  obtain ⟨a, ha, rfl, _⟩ := (resolveNames_atoms h).1 found
  exact quiet a ha

/-- A closing parenthesis after a name. -/
theorem read_unmatchedParenthesis_after_name :
    Formula.read .shortest (resolveNames [.atom ⟨0, "x", true⟩]) "x)" =
      .error (.unmatchedParenthesis 1) ∧
    ¬ HasPartner "x)".toList 1 ∧ ¬ Balanced "x)".toList := by
  have quiet := quiet_of_names (A := [⟨0, "x", true⟩]) (by decide)
    (List.forall_mem_singleton.2 (List.forall_mem_singleton.2 rfl))
  have tokens : tokenize "x)".toList = [⟨[], 0, ['x']⟩, ⟨[], 1, [')']⟩] := by decide
  have name : IsName .shortest (resolveNames [.atom ⟨0, "x", true⟩]) ['x'] [⟨[], 1, [')']⟩] 0
      (.atom ⟨0, "x", true⟩) := ⟨Nat.zero_le 1, rfl, fun _ _ => nofun, nofun⟩
  have read : Formula.read .shortest (resolveNames [.atom ⟨0, "x", true⟩]) "x)" =
      .error (.unmatchedParenthesis 1) := by
    rw [Formula.read_eq_wholeOf (tokens ▸ List.cons_ne_nil _ _), tokens]
    exact wholeOf_eq_error_iff.2 (.inr ⟨_, ⟨[], 1, [')']⟩, [],
      .chain (.chain (.name rfl name) (.done _)) (.done _), follows_rightParen rfl, rfl⟩)
  obtain ⟨before, c, after, whole, place, _, partner, unbalanced⟩ :=
    read_unmatchedParenthesis quiet read
  have second : c = ')' := by
    have split : ['x'] ++ [')'] = before ++ c :: after := whole
    exact (List.cons.inj (append_inj_of_byteLength split place.symm).2).1.symm
  have alone : ¬ HasPartner "x)".toList 1 :=
    fun found => absurd (second.symm.trans (partner.1 found).1) (by decide)
  exact ⟨read, alone, unbalanced alone⟩

/-- In a balanced text a parenthesis with a partner is reported, under each lookahead. -/
theorem partner_reported :
    Quiet (resolveNames [.atom ⟨0, "x", true⟩]) ∧
    (∀ lookahead, Formula.read lookahead (resolveNames [.atom ⟨0, "x", true⟩]) "(x y)" =
      .error (.unmatchedParenthesis 0)) ∧
    HasPartner "(x y)".toList 0 ∧ Balanced "(x y)".toList := by
  have tokens : tokenize "(x y)".toList =
      [⟨[], 0, ['(']⟩, ⟨[], 1, ['x']⟩, ⟨[' '], 3, ['y']⟩, ⟨[], 4, [')']⟩] := by decide
  refine ⟨quiet_of_names (A := [⟨0, "x", true⟩]) (by decide)
    (List.forall_mem_singleton.2 (List.forall_mem_singleton.2 rfl)), fun lookahead => ?_,
    ⟨4, .inl ⟨[], "x y".toList, [], rfl, by decide, rfl, rfl⟩⟩, by decide⟩
  have name : IsName lookahead (resolveNames [.atom ⟨0, "x", true⟩]) ['x']
      [⟨[' '], 3, ['y']⟩, ⟨[], 4, [')']⟩] 0 (.atom ⟨0, "x", true⟩) := by
    refine ⟨Nat.zero_le 2, rfl, fun _ _ => nofun, fun _ k hk hn => ?_⟩
    obtain rfl | rfl : k = 1 ∨ k = 2 := by
      rw [List.length_cons, List.length_singleton] at hk
      omega
    · rfl
    · rfl
  rw [Formula.read_eq_wholeOf (tokens ▸ List.cons_ne_nil _ _), tokens]
  have inner : Derives lookahead (resolveNames [.atom ⟨0, "x", true⟩]) (.chain .or)
      [⟨[], 1, ['x']⟩, ⟨[' '], 3, ['y']⟩, ⟨[], 4, [')']⟩] _ [⟨[' '], 3, ['y']⟩, ⟨[], 4, [')']⟩] :=
    .chain (.chain (.name rfl name) (.done _)) (.done _)
  refine wholeOf_eq_error_iff.2 (.inl (.first (.first (.unclosed rfl inner ?_ nofun))))
  exact fun _ _ => nofun

end Reading

end RuleFormula
