import RuleFormula.Proofs.Reading.Elsewhere
import RuleFormula.Proofs.Reading.Failure
import RuleFormula.Proofs.Reading.Partition

/-!
# The first token at fault

Where the shortest spans are taken for names, reading goes from left to right and never looks ahead.
`Awaits` says how far it has come when the next thing must be a term: which tokens have been read,
and how many parentheses are open. From there any term may come, with the closing parentheses after
it (`Awaits.completed`), and where no term comes all that was begun fails (`Awaits.fails`).

An error is found at the first token with which the text cannot go on. What comes before it is the
beginning of a text that is read, and what comes after it makes no difference (`read_first_fault`).
-/

namespace RuleFormula

open Text (isBlank)
open Token

namespace Reading

variable {resolve : String → Option Formula} {s : Symbol} {e : Tree} {err : ParseError}
  {t : Token} {ts us vs ws cs : List Token} {xs ys : List Char} {n i : Nat} {text found : String}

variable (resolve) in
/-- All these tokens have been read and a term must come next, with so many closing parentheses
after it. -/
inductive Awaits : Symbol → List Token → Nat → Prop
  | here : Awaits .term [] 0
  | parentheses {t : Token} {ts : List Token} {n : Nat} : t.keyword? = some .leftParen →
    Awaits (.chain .or) ts n → Awaits .term (t :: ts) (n + 1)
  | not {t : Token} {ts : List Token} {n : Nat} : t.keyword? = some .not →
    Awaits .term ts n → Awaits .term (t :: ts) n
  | first {c : Connective} {ts : List Token} {n : Nat} :
    Awaits c.operandSymbol ts n → Awaits (.chain c) ts n
  | further {c : Connective} {us ts : List Token} {first : Tree} {n : Nat} :
    Derives .shortest resolve c.operandSymbol us first [] → Awaits (.further c) ts n →
    Awaits (.chain c) (us ++ ts) n
  | next {c : Connective} {t : Token} {ts : List Token} {n : Nat} : t.keyword? = some c.keyword →
    Awaits c.operandSymbol ts n → Awaits (.further c) (t :: ts) n
  | later {c : Connective} {t : Token} {us ts : List Token} {next : Tree} {n : Nat} :
    t.keyword? = some c.keyword → Derives .shortest resolve c.operandSymbol us next [] →
    Awaits (.further c) ts n → Awaits (.further c) (t :: (us ++ ts)) n

/-! ## What may come next -/

/-- Where a term is awaited, any one may come, and then as many closing parentheses as are missing.
-/
theorem Awaits.completed (h : Awaits resolve s ts n)
    (term : Derives .shortest resolve .term ws e []) :
    ∀ cs : List Token, cs.length = n → (∀ c ∈ cs, c.keyword? = some .rightParen) →
      ∃ e', Derives .shortest resolve s (ts ++ (ws ++ cs)) e' [] := by
  induction h with
  | here =>
    intro cs length _
    obtain rfl := List.length_eq_zero_iff.1 length
    exact ⟨e, (List.append_nil ws).symm ▸ term⟩
  | @parentheses t ts n hk _ ih =>
    intro cs length closing
    obtain rfl | ⟨cs, c, rfl⟩ := List.eq_nil_or_concat' cs
    · cases length
    rw [List.length_append, List.length_singleton] at length
    obtain ⟨inside, last⟩ := List.forall_mem_append.1 closing
    obtain ⟨e', inner⟩ := ih cs (Nat.succ.inj length) inside
    have closed := inner.append [c]
    rw [List.append_assoc, List.append_assoc] at closed
    exact ⟨_, .parentheses hk (last c (List.mem_singleton_self c)) closed⟩
  | not hk _ ih =>
    intro cs length closing
    obtain ⟨e', operand⟩ := ih cs length closing
    exact ⟨_, .not hk operand⟩
  | first _ ih =>
    intro cs length closing
    obtain ⟨e', first⟩ := ih cs length closing
    exact ⟨_, .chain first (.done [])⟩
  | further first _ ih =>
    intro cs length closing
    obtain ⟨e', further⟩ := ih cs length closing
    rw [List.append_assoc]
    exact ⟨_, .chain (first.append _) further⟩
  | next hk _ ih =>
    intro cs length closing
    obtain ⟨e', next⟩ := ih cs length closing
    exact ⟨_, .more hk next (.done [])⟩
  | later hk next _ ih =>
    intro cs length closing
    obtain ⟨e', later⟩ := ih cs length closing
    rw [List.cons_append, List.append_assoc]
    exact ⟨_, .more hk (next.append _) later⟩

/-- Where a term is awaited and none can be read, all that was begun fails. -/
theorem Awaits.fails (h : Awaits resolve s ts n) (fault : Fails .shortest resolve .term vs err) :
    Fails .shortest resolve s (ts ++ vs) err := by
  induction h with
  | here => exact fault
  | parentheses hk _ ih => exact .inside hk ih
  | not hk _ ih => exact .not hk ih
  | first _ ih => exact .first ih
  | further first _ ih =>
    rw [List.append_assoc]
    exact .further (first.append _) ih
  | next hk _ ih => exact .next hk ih
  | later hk next _ ih =>
    rw [List.cons_append, List.append_assoc]
    exact .later hk (next.append _) ih

/-- Where reading fails, and not at a parenthesis, a term was awaited and none begins. -/
theorem Fails.awaits (h : Fails .shortest resolve s ts err)
    (hn : ∀ i, err ≠ .unmatchedParenthesis i) :
    ∃ us vs n, ts = us ++ vs ∧ Awaits resolve s us n ∧ Barred resolve vs err := by
  induction h with
  | here barred => exact ⟨[], _, 0, rfl, .here, barred⟩
  | @inside t _ _ hk _ ih =>
    obtain ⟨us, vs, n, rfl, awaits, barred⟩ := ih hn
    exact ⟨t :: us, vs, n + 1, rfl, .parentheses hk awaits, barred⟩
  | unclosed => exact absurd rfl (hn _)
  | @not t _ _ hk _ ih =>
    obtain ⟨us, vs, n, rfl, awaits, barred⟩ := ih hn
    exact ⟨t :: us, vs, n, rfl, .not hk awaits, barred⟩
  | first _ ih =>
    obtain ⟨us, vs, n, rfl, awaits, barred⟩ := ih hn
    exact ⟨us, vs, n, rfl, .first awaits, barred⟩
  | further first _ ih =>
    obtain ⟨us, vs, n, rfl, awaits, barred⟩ := ih hn
    obtain ⟨before, rfl, alone⟩ := first.alone
    exact ⟨before ++ us, vs, n, (List.append_assoc _ _ _).symm, .further alone awaits, barred⟩
  | @next _ t _ _ hk _ ih =>
    obtain ⟨us, vs, n, rfl, awaits, barred⟩ := ih hn
    exact ⟨t :: us, vs, n, rfl, .next hk awaits, barred⟩
  | @later _ t _ _ _ _ hk next _ ih =>
    obtain ⟨us, vs, n, rfl, awaits, barred⟩ := ih hn
    obtain ⟨before, rfl, alone⟩ := next.alone
    exact ⟨t :: (before ++ us), vs, n, congrArg _ (List.append_assoc _ _ _).symm,
      .later hk alone awaits, barred⟩

variable (resolve) in
/-- Tokens with which an expression begins: a term is awaited after them, or they are an expression.
-/
def Begun (ts : List Token) : Prop :=
  (∃ n, Awaits resolve (.chain .or) ts n) ∨ ∃ e, Derives .shortest resolve (.chain .or) ts e []

/-! ## Where the fault is -/

/-- The token that is reported as unexpected is the first one that is so, whatever comes after it.
-/
lemma unexpected_cases (h : wholeOf .shortest resolve ts = .error (.unexpected i found)) :
    ∃ us t vs, ts = us ++ t :: vs ∧ t.start = i ∧ String.ofList t.text = found ∧ Begun resolve us ∧
      ∀ ws, wholeOf .shortest resolve (us ++ t :: ws) = .error (.unexpected i found) := by
  obtain fails | ⟨e, t, rest, derived, hf, left⟩ := wholeOf_eq_error_iff.1 h
  · obtain ⟨us, vs, n, rfl, awaits, barred⟩ := fails.awaits nofun
    cases barred with
    | @keyword t vs k hk other =>
      refine ⟨us, t, vs, rfl, rfl, rfl, .inl ⟨n, awaits⟩, fun ws => ?_⟩
      exact wholeOf_eq_error_iff.2 (.inl (awaits.fails (.here (.keyword hk other))))
  · obtain ⟨us, rfl, alone⟩ := derived.alone
    have again (ws : List Token) : wholeOf .shortest resolve (us ++ t :: ws) = .error (leftOver t) :=
      wholeOf_eq_error_iff.2 (.inr ⟨e, t, ws, alone.append (t :: ws), hf, rfl⟩)
    rw [left] at again
    unfold leftOver at left
    split at left
    next => cases left
    next =>
      cases left
      exact ⟨us, t, rest, rfl, rfl, rfl, .inr ⟨e, alone⟩, again⟩

/-- No name begins with the word that is reported as unresolved, where one must begin. -/
lemma unresolved_cases (h : wholeOf .shortest resolve ts = .error (.unresolved i found)) :
    ∃ us t vs, ts = us ++ t :: vs ∧ t.start = i ∧ t.keyword? = none ∧ Begun resolve us ∧
      ∀ k ≤ vs.length, resolve (String.ofList (spanText t.text vs k)) = none := by
  obtain fails | ⟨e, t, rest, _, _, left⟩ := wholeOf_eq_error_iff.1 h
  · obtain ⟨us, vs, n, rfl, awaits, barred⟩ := fails.awaits nofun
    cases barred with
    | @nameless t vs hk none => exact ⟨us, t, vs, rfl, rfl, hk, .inl ⟨n, awaits⟩, none⟩
  · unfold leftOver at left
    split at left <;> cases left

/-! ## Texts -/

variable (resolve) in
/-- A text with which one begins that is read as a formula. -/
def Viable (text : String) : Prop :=
  ∃ rest p, Formula.read .shortest resolve (text ++ rest) = .ok p

/-- Closing parentheses are as many tokens. -/
lemma tokenizeFrom_closers (n start : Nat) :
    (tokenizeFrom start (List.replicate n ')')).length = n ∧
      ∀ t ∈ tokenizeFrom start (List.replicate n ')'), t.keyword? = some .rightParen := by
  induction n generalizing start with
  | zero => exact ⟨rfl, List.forall_mem_nil _⟩
  | succ n ih =>
    obtain ⟨start', tokens⟩ := tokenizeFrom_keyword_append .rightParen (List.replicate n ')')
      (.inr (.inr rfl)) start
    replace tokens : tokenizeFrom start (List.replicate (n + 1) ')') = _ := tokens
    obtain ⟨length, closing⟩ := ih start'
    rw [tokens]
    exact ⟨congrArg Nat.succ length, List.forall_mem_cons.2 ⟨keyword?_eq .rightParen _ _, closing⟩⟩

/-- No word goes on in closing parentheses. -/
lemma bounded_closers (n : Nat) : Bounded (List.replicate n ')') := by
  intro c hc
  obtain rfl := List.eq_of_mem_replicate (List.mem_of_mem_head? hc)
  exact .inr rfl

/-- A blank, a term and closing parentheses after a text. -/
lemma tokenize_completed (xs : List Char) (n : Nat) :
    ∃ t cs, tokenize (xs ++ ' ' :: (Keyword.true.text.toList ++ List.replicate n ')')) =
        tokenize xs ++ ([t] ++ cs) ∧
      t.keyword? = some .true ∧ cs.length = n ∧ ∀ c ∈ cs, c.keyword? = some .rightParen := by
  have bounded : Bounded (' ' :: (Keyword.true.text.toList ++ List.replicate n ')')) :=
    bounded_blank rfl
  obtain ⟨gap, _, whole⟩ := tokenizeFrom_append_bounded bounded 0 xs
  obtain ⟨start, later⟩ := tokenizeFrom_keyword_append .true (List.replicate n ')')
    (.inl (bounded_closers n)) (0 + byteLength xs + ' '.utf8Size)
  rw [tokenizeFrom_blank rfl, later] at whole
  exact ⟨_, _, whole, keyword?_eq .true _ _, tokenizeFrom_closers n start⟩

/-- A text with which an expression begins is the beginning of one that is read as a formula. -/
lemma Begun.viable (h : Begun resolve us) (tokens : tokenize xs = us) :
    Viable resolve (String.ofList xs) := by
  obtain ⟨n, awaits⟩ | ⟨e, derived⟩ := h
  · obtain ⟨t, cs, whole, hk, length, closing⟩ := tokenize_completed xs n
    obtain ⟨e, derived⟩ := awaits.completed (.top hk) cs length closing
    rw [← tokens, ← whole] at derived
    refine ⟨.ofList (' ' :: (Keyword.true.text.toList ++ List.replicate n ')')), e.value, ?_⟩
    rw [read_eq_ok_iff, String.toList_append, String.toList_ofList, String.toList_ofList]
    exact ⟨e, derived, rfl⟩
  · refine ⟨"", e.value, ?_⟩
    rw [String.append_empty, read_eq_ok_iff, String.toList_ofList, tokens]
    exact ⟨e, derived, rfl⟩

/-- The tokens of what comes before a token are those before it. -/
lemma tokenize_before (h : Divided 0 xs (us ++ t :: vs)) : tokenize (written us ++ t.gap) = us := by
  have blank : AllBlank t.gap := h.allBlank_gap t (List.mem_append_right us List.mem_cons_self)
  have bounded : Bounded t.gap := fun c hc => .inl (blank c (List.mem_of_mem_head? hc))
  obtain ⟨gap, _, whole⟩ := tokenizeFrom_append_bounded bounded 0 (written us)
  have again : tokenizeFrom 0 (written us) = us :=
    tokenizeFrom_written (h.eq ▸ List.prefix_append us (t :: vs))
  rw [tokenizeFrom_of_blank blank, again] at whole
  exact whole.trans (List.append_nil us)

/-- The tokens up to a token are there again where another text comes after it that does not go on
with it. -/
lemma tokenize_through (h : Divided 0 xs (us ++ t :: vs)) (bounded : Bounded ys) :
    ∃ ws, tokenize (written us ++ t.gap ++ t.text ++ ys) = us ++ t :: ws := by
  obtain ⟨gap, _, whole⟩ := tokenizeFrom_append_bounded bounded 0 (written (us ++ [t]))
  have first : us ++ [t] <+: tokenizeFrom 0 xs := by
    rw [h.eq]
    exact ⟨vs, List.append_assoc us [t] vs⟩
  rw [tokenizeFrom_written first, written_concat, List.append_assoc us] at whole
  exact ⟨_, whole⟩

/-! ## The fault in a text -/

/-- The text before a token. -/
lemma slice_before (h : Divided 0 text.toList (us ++ t :: vs)) :
    slice text 0 t.start = String.ofList (written us ++ t.gap) := by
  obtain ⟨after, whole, place, _⟩ := h.of_middle
  have start : text.toList = [] ++ (written us ++ t.gap ++ (t.text ++ after)) := whole
  rw [place]
  exact slice_eq start

/-- What stands before a token is viable, if the tokens before it are begun. -/
lemma viable_before (tokens : tokenize text.toList = us ++ t :: vs) (h : Begun resolve us) :
    Viable resolve (slice text 0 t.start) := by
  have divided := divided_tokenize text.toList
  rw [tokens] at divided
  rw [slice_before divided]
  exact h.viable (tokenize_before divided)

/-- What comes up to a token goes on with the tokens of another text. -/
lemma tokenize_continued {rest : String} (tokens : tokenize text.toList = us ++ t :: vs)
    (blank : ∀ c ∈ rest.toList.head?, isBlank c = true) :
    ∃ ws, tokenize (slice text 0 t.start ++ String.ofList t.text ++ rest).toList = us ++ t :: ws := by
  have divided := divided_tokenize text.toList
  rw [tokens] at divided
  have bounded : Bounded rest.toList := fun c hc => .inl (blank c hc)
  rw [slice_before divided, String.toList_append, String.toList_append, String.toList_ofList,
    String.toList_ofList]
  exact tokenize_through divided bounded

/-- A span from one token to the end of another one ends with the same token or a later one. -/
lemma exists_span {u : Token} (tokens : tokenize text.toList = us ++ t :: vs)
    (hu : u ∈ tokenize text.toList) (later : t.start < u.stop) :
    ∃ k ≤ vs.length, slice text t.start u.stop = String.ofList (spanText t.text vs k) := by
  have divided := divided_tokenize text.toList
  rw [tokens] at divided hu
  have mem : u ∈ t :: vs := by
    obtain ⟨_, _, earlier⟩ := List.pairwise_append.1 divided.ordered
    refine (List.mem_append.1 hu).resolve_left fun before => ?_
    exact absurd later (Nat.not_lt.2 (earlier u before t List.mem_cons_self))
  obtain ⟨before, after, split⟩ := List.append_of_mem mem
  have within : before.length ≤ vs.length := by
    have length := congrArg List.length split
    rw [List.length_append, List.length_cons, List.length_cons] at length
    omega
  have last : (t :: vs.take before.length).getLast? = some u := by
    have taken : t :: vs.take before.length = before ++ [u] := by
      rw [← List.take_succ_cons, split, List.take_length_add_append]
      rfl
    rw [taken, List.getLast?_concat]
  rw [append_cons_take_drop us t vs before.length] at divided
  exact ⟨before.length, within, (divided.stretch_text last).slice⟩

/-- Where a token is unexpected or a word begins no name, the text before it can be completed to one
that is read. The unexpected token is reported whatever comes after it, unless it is a word that
goes on. No span that begins with the word is a name. -/
theorem read_first_fault (resolve : String → Option Formula) (text : String) :
    (∀ i found, Formula.read .shortest resolve text = .error (.unexpected i found) →
      Viable resolve (slice text 0 i) ∧
      ∃ t ∈ tokenize text.toList, t.start = i ∧ String.ofList t.text = found ∧
        ∀ rest : String, (∀ c ∈ rest.toList.head?, isBlank c = true) →
          Formula.read .shortest resolve (slice text 0 i ++ found ++ rest) =
            .error (.unexpected i found)) ∧
    (∀ i rest, Formula.read .shortest resolve text = .error (.unresolved i rest) →
      Viable resolve (slice text 0 i) ∧
      ∃ t ∈ tokenize text.toList, t.start = i ∧ t.keyword? = none ∧
        ∀ u ∈ tokenize text.toList, i < u.stop → resolve (slice text i u.stop) = none) := by
  have mem {us vs : List Token} {t : Token} (tokens : tokenize text.toList = us ++ t :: vs) :
      t ∈ tokenize text.toList := tokens ▸ List.mem_append_right us List.mem_cons_self
  refine ⟨fun i found h => ?_, fun i rest h => ?_⟩
  · have refused := wholeOf_of_read_eq_error h nofun
    obtain ⟨us, t, vs, tokens, rfl, rfl, begun, again⟩ := unexpected_cases refused
    refine ⟨viable_before tokens begun, t, mem tokens, rfl, rfl, fun rest blank => ?_⟩
    obtain ⟨ws, whole⟩ := tokenize_continued tokens blank
    have some : us ++ t :: ws ≠ [] := List.append_ne_nil_of_right_ne_nil us (List.cons_ne_nil t ws)
    rw [Formula.read_eq_wholeOf (whole ▸ some), whole]
    exact again ws
  · have refused := wholeOf_of_read_eq_error h nofun
    obtain ⟨us, t, vs, tokens, rfl, hk, begun, none⟩ := unresolved_cases refused
    refine ⟨viable_before tokens begun, t, mem tokens, rfl, hk, fun u hu later => ?_⟩
    obtain ⟨k, hl, span⟩ := exists_span tokens hu later
    rw [span]
    exact none k hl

/-- A connective where an operand should come, and a word that is no name. -/
theorem read_first_fault_in_operand :
    Formula.read .shortest (resolveNames [.atom ⟨0, "x", true⟩]) "x AND OR" =
      .error (.unexpected 6 "OR") ∧
    Viable (resolveNames [.atom ⟨0, "x", true⟩]) (slice "x AND OR" 0 6) ∧
    Formula.read .shortest (resolveNames [.atom ⟨0, "x", true⟩]) "NOT y" =
      .error (.unresolved 4 "y") ∧
    Viable (resolveNames [.atom ⟨0, "x", true⟩]) (slice "NOT y" 0 4) := by
  have keyword : Formula.read .shortest (resolveNames [.atom ⟨0, "x", true⟩]) "x AND OR" =
      .error (.unexpected 6 "OR") := by
    have tokens : tokenize "x AND OR".toList =
        [⟨[], 0, ['x']⟩, ⟨[' '], 2, ['A', 'N', 'D']⟩, ⟨[' '], 6, ['O', 'R']⟩] := by decide
    have name : IsName .shortest (resolveNames [.atom ⟨0, "x", true⟩]) ['x']
        [⟨[' '], 2, ['A', 'N', 'D']⟩, ⟨[' '], 6, ['O', 'R']⟩] 0 (.atom ⟨0, "x", true⟩) :=
      ⟨Nat.zero_le 2, rfl, fun _ _ => nofun, nofun⟩
    rw [Formula.read_eq_wholeOf (tokens ▸ List.cons_ne_nil _ _), tokens]
    refine wholeOf_eq_error_iff.2 (.inl (.first (.further (c := .and) (.name rfl name) ?_)))
    exact .next rfl (.here (.keyword (k := .or) rfl ⟨nofun, nofun, nofun, nofun⟩))
  have word : Formula.read .shortest (resolveNames [.atom ⟨0, "x", true⟩]) "NOT y" =
      .error (.unresolved 4 "y") := by
    have tokens : tokenize "NOT y".toList = [⟨[], 0, ['N', 'O', 'T']⟩, ⟨[' '], 4, ['y']⟩] := by
      decide
    rw [Formula.read_eq_wholeOf (tokens ▸ List.cons_ne_nil _ _), tokens]
    refine wholeOf_eq_error_iff.2 (.inl (.first (.first (.not rfl (.here (.nameless rfl ?_))))))
    intro k hk
    obtain rfl := Nat.le_zero.1 hk
    rfl
  exact ⟨keyword, ((read_first_fault _ _).1 6 "OR" keyword).1, word,
    ((read_first_fault _ _).2 4 "y" word).1⟩

end Reading

end RuleFormula
