import RuleFormula.Proofs.Reading.Lexemes

/-!
# How tokens lie in a text

Each token of a text knows the bytes between which it stands. These are positions where characters
begin or end, the tokens stand one after the other, and each character that is no white space
belongs to one of them. `Partition` says so in terms of the encoded text, and says that each stretch
from the beginning of one token to the end of another one has the tokens in it for its own tokens.
Every text has such a partition in its tokens (`tokenize_partition`).
-/

namespace RuleFormula

open Text (isBlank)

namespace Token

variable {c : Char} {start : Nat} {text : String} {before after xs ys cs : List Char} {t u : Token}
  {ts us vs : List Token}

/-! ## Places in a text -/

/-- The part of a text between two numbers of bytes. -/
def slice (text : String) (first last : Nat) : String :=
  String.Pos.Raw.extract text ⟨first⟩ ⟨last⟩

/-- After this number of bytes a character of the text begins, or the text ends. -/
def IsBoundary (text : String) (n : Nat) : Prop := String.Pos.Raw.IsValid text ⟨n⟩

/-- Between two parts of a text is a boundary. -/
lemma isBoundary_byteLength (h : text.toList = xs ++ ys) : IsBoundary text (byteLength xs) := by
  have parts : text = String.ofList xs ++ String.ofList ys := by
    rw [← String.ofList_append, ← h, String.ofList_toList]
  refine String.Pos.Raw.isValid_iff_exists_append.2 ⟨_, _, parts, ?_⟩
  rw [String.Pos.Raw.ext_iff, String.byteIdx_rawEndPos, ← byteLength_toList, String.toList_ofList]

/-- The part in the middle of a text is found by the bytes before it and its own. -/
lemma slice_eq (h : text.toList = before ++ (cs ++ after)) :
    slice text (byteLength before) (byteLength before + byteLength cs) = String.ofList cs := by
  have parts : text = String.ofList (before ++ cs ++ after) := by
    rw [List.append_assoc, ← h, String.ofList_toList]
  rw [slice, parts, byteLength_eq_utf8Len, byteLength_eq_utf8Len]
  exact String.extract_of_valid before cs after

/-- The token is a parenthesis. -/
def IsParenthesis (t : Token) : Prop :=
  t.keyword? = some .leftParen ∨ t.keyword? = some .rightParen

/-- A token of one parenthesis is the keyword. -/
lemma isParenthesis_of_text (h : t.text = [c]) (hp : isParenthesis c = true) :
    t.IsParenthesis := by
  rw [isParenthesis, Bool.or_eq_true, decide_eq_true_eq, decide_eq_true_eq] at hp
  rw [IsParenthesis, keyword?, h]
  obtain rfl | rfl := hp
  · exact .inl rfl
  · exact .inr rfl

/-! ## Characters and tokens -/

/-- An element of two lists, one after the other, is in the first or in the second. -/
lemma append_eq_append_cons {α : Type} {xs ys before after : List α} {x : α}
    (h : xs ++ ys = before ++ x :: after) :
    (∃ mid, xs = before ++ x :: mid) ∨ ∃ mid, before = xs ++ mid ∧ ys = mid ++ x :: after := by
  obtain ⟨mid, rfl, e⟩ | ⟨mid, rfl, e⟩ := List.append_eq_append_iff.1 h
  · exact .inr ⟨mid, rfl, e⟩
  · cases mid with
    | nil => exact .inr ⟨[], by rw [List.append_nil, List.append_nil], e.symm⟩
    | cons y mid =>
      obtain ⟨rfl, _⟩ := List.cons.inj e
      exact .inl ⟨mid, rfl⟩

/-- A character of a text is white space and stands in no token, or it stands in a token. -/
lemma Divided.place (h : Divided start cs ts) (e : cs = before ++ c :: after) :
    (isBlank c = true ∧
      ∀ t ∈ ts, t.stop ≤ start + byteLength before ∨ start + byteLength before < t.start) ∨
    ∃ us t vs pre post, ts = us ++ t :: vs ∧ t.text = pre ++ c :: post ∧
      t.start + byteLength pre = start + byteLength before := by
  induction h generalizing before with
  | nil hb => exact .inl ⟨hb c (e ▸ List.mem_append_right _ List.mem_cons_self),
      List.forall_mem_nil _⟩
  | @cons start gap text cs ts hg _ later ih =>
    obtain ⟨mid, rfl⟩ | ⟨mid, rfl, e'⟩ := append_eq_append_cons e
    · -- in the white space before the token
      refine .inl ⟨hg c (List.mem_append_right _ List.mem_cons_self), ?_⟩
      have first : byteLength before < byteLength (before ++ c :: mid) := by
        rw [byteLength_append]
        exact Nat.lt_add_of_pos_right (byteLength_pos (List.cons_ne_nil c mid))
      refine List.forall_mem_cons.2 ⟨.inr (Nat.add_lt_add_left first start), fun t ht => .inr ?_⟩
      have := later.le_start t ht
      omega
    obtain ⟨mid', rfl⟩ | ⟨mid, rfl, e''⟩ := append_eq_append_cons e'
    · -- in the token itself
      refine .inr ⟨[], _, ts, mid, mid', rfl, rfl, ?_⟩
      rw [byteLength_append, Nat.add_assoc]
    · have place : start + byteLength gap + byteLength text + byteLength mid =
          start + byteLength (gap ++ (text ++ mid)) := by
        simp only [byteLength_append, Nat.add_assoc]
      obtain ⟨hb, outside⟩ | ⟨us, t, vs, pre, post, rfl, he, hs⟩ := ih e''
      · rw [place] at outside
        refine .inl ⟨hb, List.forall_mem_cons.2 ⟨.inl ?_, outside⟩⟩
        rw [stop, ← place]
        exact Nat.le_add_right _ _
      · exact .inr ⟨_ :: us, t, vs, pre, post, rfl, he, hs.trans place⟩

/-- Tokens come one after the other. -/
lemma Divided.ordered (h : Divided start cs ts) : ts.Pairwise fun t u => t.stop ≤ u.start := by
  induction h with
  | nil _ => exact .nil
  | cons _ _ later ih => exact .cons later.le_start ih

/-- A token with which a text begins at once is a parenthesis, where the text goes on with no
word. -/
lemma Divided.isParenthesis_of_start (h : Divided start cs ts) (hc : Bounded cs) (hu : u ∈ ts)
    (hs : u.start = start) : u.IsParenthesis := by
  obtain ⟨us, vs, rfl⟩ := List.append_of_mem hu
  obtain ⟨rest, rfl, first⟩ := h.of_append
  obtain ⟨e, _, rest, rfl, hl, _⟩ := first.of_cons
  have before : written us ++ u.gap = [] := by
    by_contra hn
    have := byteLength_pos hn
    rw [byteLength_append] at this
    omega
  obtain ⟨hus, hg⟩ := List.append_eq_nil_iff.1 before
  obtain ⟨d, xs, hd⟩ := List.exists_cons_of_ne_nil hl.ne_nil
  have mem : d ∈ u.text := hd ▸ List.mem_cons_self
  rw [hus, hg, hd] at hc
  obtain blank | paren := hc d rfl
  · rw [hl.not_isBlank d mem] at blank
    cases blank
  · exact isParenthesis_of_text (hl.eq_singleton mem paren) paren

/-- Of two tokens with nothing between them one is a parenthesis. -/
lemma Divided.touching (h : Divided start cs ts) :
    ts.Pairwise fun t u => t.stop = u.start → t.IsParenthesis ∨ u.IsParenthesis := by
  induction h with
  | nil _ => exact .nil
  | cons _ hl later ih =>
    refine .cons (fun u hu e => ?_) ih
    cases hl with
    | parenthesis _ hp => exact .inl (isParenthesis_of_text rfl hp)
    | word _ _ hb => exact .inr (later.isParenthesis_of_start hb hu e.symm)

/-- A stretch of tokens stands in the text from the beginning of the first one to the end of the
last one. -/
lemma Divided.stretch_place (h : Divided start cs (us ++ (t :: vs) ++ ts))
    (hu : (t :: vs).getLast? = some u) :
    ∃ before after, cs = before ++ ((t.text ++ written vs) ++ after) ∧
      t.start = start + byteLength before ∧ u.stop = t.start + byteLength (t.text ++ written vs) := by
  have last : u.stop = start + byteLength (written (us ++ t :: vs)) := by
    refine h.stop_getLast ?_
    rw [List.getLast?_append, hu]
    rfl
  rw [List.append_assoc] at h
  obtain ⟨rest, rfl, first⟩ := h.of_append
  obtain ⟨hs, _, rest, rfl, _, later⟩ := first.of_cons
  obtain ⟨rest, rfl, _⟩ := later.of_append
  refine ⟨written us ++ t.gap, rest, ?_, ?_, ?_⟩
  · simp only [List.append_assoc]
  · rw [hs, byteLength_append, Nat.add_assoc]
  · rw [last, hs, written_append, written_cons]
    simp only [byteLength_append, Nat.add_assoc]

/-- Whether a character that has so many bytes before it is part of the token. -/
def covers (n : Nat) (c : Char) (t : Token) : Bool := t.start ≤ n ∧ n + c.utf8Size ≤ t.stop

/-- A token covers a character when it begins no later and ends no earlier. -/
lemma covers_iff {n : Nat} : covers n c t = true ↔ t.start ≤ n ∧ n + c.utf8Size ≤ t.stop :=
  decide_eq_true_iff

/-- A character lies in no token that ends before it or begins behind it. -/
lemma countP_covers_eq_zero {n : Nat} (h : ∀ t ∈ ts, t.stop ≤ n ∨ n < t.start) :
    ts.countP (covers n c) = 0 := by
  refine List.countP_eq_zero.2 fun t ht hc => ?_
  obtain ⟨first, last⟩ := covers_iff.1 hc
  have := c.utf8Size_pos
  have := h t ht
  omega

/-- Each character stands in one token, and in none when it is white space. -/
lemma Divided.countP_covers (h : Divided start (before ++ c :: after) ts) :
    ts.countP (covers (start + byteLength before) c) = if isBlank c then 0 else 1 := by
  obtain ⟨hb, outside⟩ | ⟨us, t, vs, pre, post, rfl, ht, hs⟩ := h.place rfl
  · rw [if_pos hb]
    exact countP_covers_eq_zero outside
  · obtain ⟨rest, lexeme⟩ := h.isLexeme t (List.mem_append_right us List.mem_cons_self)
    have visible := lexeme.not_isBlank c (ht ▸ List.mem_append_right pre List.mem_cons_self)
    obtain ⟨_, later, earlier⟩ := List.pairwise_append.1 h.ordered
    have inside : t.start ≤ start + byteLength before ∧
        start + byteLength before + c.utf8Size ≤ t.stop := by
      rw [stop, ht, byteLength_append, byteLength]
      omega
    have first : us.countP (covers (start + byteLength before) c) = 0 := by
      refine countP_covers_eq_zero fun u hu => .inl ?_
      exact Nat.le_trans (earlier u hu t List.mem_cons_self) inside.1
    have last : vs.countP (covers (start + byteLength before) c) = 0 := by
      refine countP_covers_eq_zero fun u hu => .inr ?_
      have := (List.pairwise_cons.1 later).1 u hu
      have := c.utf8Size_pos
      omega
    rw [List.countP_append, List.countP_cons_of_pos (covers_iff.2 inside), first, last, visible]
    rfl

/-- Each parenthesis is a token. -/
lemma Divided.exists_parenthesis (h : Divided start (before ++ c :: after) ts)
    (hp : isParenthesis c = true) :
    ∃ t ∈ ts, t.start = start + byteLength before ∧ t.text = [c] := by
  obtain ⟨hb, _⟩ | ⟨us, t, vs, pre, post, rfl, ht, hs⟩ := h.place rfl
  · rw [not_isBlank_of_isParenthesis hp] at hb
    cases hb
  · have mem : t ∈ us ++ t :: vs := List.mem_append_right us List.mem_cons_self
    obtain ⟨rest, lexeme⟩ := h.isLexeme t mem
    have alone := lexeme.eq_singleton (ht ▸ List.mem_append_right pre List.mem_cons_self) hp
    obtain rfl : pre = [] := by
      have length := congrArg List.length (alone.symm.trans ht)
      rw [List.length_append, List.length_cons, List.length_cons, List.length_nil] at length
      exact List.length_eq_zero_iff.1 (by omega)
    exact ⟨t, mem, hs, alone⟩

/-! ## The partition -/

/-- The text between the beginning of a token and the end of the same or a later one lies within the
whole text. It is the span that the readers put together of these tokens, and its own tokens are the
same ones, as many bytes earlier as there are before it. -/
structure Stretch (text : String) (t : Token) (vs : List Token) (u : Token) : Prop where
  nonempty : t.start < u.stop
  within : u.stop ≤ text.utf8ByteSize
  boundaries : IsBoundary text t.start ∧ IsBoundary text u.stop
  slice : slice text t.start u.stop = String.ofList (t.text ++ written vs)
  tokens : (tokenize (Token.slice text t.start u.stop).toList).map (shift t.start) =
    { t with gap := [] } :: vs

/-- How tokens divide a text. -/
structure Partition (text : String) (ts : List Token) : Prop where
  /-- No token is empty, and characters begin or end at both its ends. -/
  nonempty : ∀ t ∈ ts, t.start < t.stop
  boundaries : ∀ t ∈ ts, IsBoundary text t.start ∧ IsBoundary text t.stop
  /-- A token has the characters between its ends, and no white space is among them. -/
  slice : ∀ t ∈ ts, slice text t.start t.stop = String.ofList t.text
  not_isBlank : ∀ t ∈ ts, ∀ c ∈ t.text, isBlank c = false
  /-- The tokens come one after the other and have no byte in common. -/
  ordered : ts.Pairwise fun t u => t.stop ≤ u.start
  /-- Each character stands in one token, and in none when it is white space. -/
  covered {before after : List Char} {c : Char} : text.toList = before ++ c :: after →
    ts.countP (covers (byteLength before) c) = if isBlank c then 0 else 1
  /-- Each parenthesis is a token. -/
  parenthesis {before after : List Char} {c : Char} : text.toList = before ++ c :: after →
    isParenthesis c = true → ∃ t ∈ ts, t.start = byteLength before ∧ t.text = [c]
  /-- Words do not touch each other. -/
  touching : ts.Pairwise fun t u => t.stop = u.start → t.IsParenthesis ∨ u.IsParenthesis
  /-- A token is a keyword when this is how the keyword is written. -/
  keyword : ∀ t ∈ ts, ∀ k, t.keyword? = some k ↔ Token.slice text t.start t.stop = k.text
  stretch {us vs ws : List Token} {t u : Token} : ts = us ++ (t :: vs) ++ ws →
    (t :: vs).getLast? = some u → Stretch text t vs u

/-- A text that begins with a lexeme has characters. -/
lemma IsLexeme.append_ne_nil (h : IsLexeme xs ys) (cs : List Char) : xs ++ cs ≠ [] :=
  List.append_ne_nil_of_left_ne_nil h.ne_nil cs

/-- The tokens from one to another have their own text, and are found in it again. -/
lemma Divided.stretch_text (h : Divided 0 text.toList (us ++ (t :: vs) ++ ts))
    (hu : (t :: vs).getLast? = some u) : Stretch text t vs u := by
  obtain ⟨before, after, e, hs, hl⟩ := h.stretch_place hu
  obtain ⟨rest, lexeme⟩ := h.isLexeme t (by simp)
  rw [Nat.zero_add] at hs
  have part : Token.slice text t.start u.stop = String.ofList (t.text ++ written vs) := by
    rw [hl, hs]
    exact slice_eq e
  have last : IsBoundary text u.stop := by
    rw [hl, hs, ← byteLength_append]
    exact isBoundary_byteLength (e.trans (List.append_assoc _ _ _).symm)
  refine ⟨?_, last.le_utf8ByteSize, ⟨hs ▸ isBoundary_byteLength e, last⟩, part, ?_⟩
  · rw [hl]
    exact Nat.lt_add_of_pos_right (byteLength_pos (lexeme.append_ne_nil _))
  · rw [part, String.toList_ofList, tokenize, ← tokenizeFrom_shift]
    exact h.stretch

/-- The tokens of a text divide it. -/
theorem tokenize_partition (text : String) : Partition text (tokenize text.toList) := by
  have h := divided_tokenizeFrom 0 text.toList
  rw [← tokenize] at h
  have alone : ∀ t ∈ tokenize text.toList, Stretch text t [] t := by
    intro t ht
    obtain ⟨us, ws, e⟩ := List.append_of_mem ht
    have parts : us ++ t :: ws = us ++ [t] ++ ws := (List.append_assoc us [t] ws).symm
    rw [e, parts] at h
    exact h.stretch_text rfl
  have slices : ∀ t ∈ tokenize text.toList,
      slice text t.start t.stop = String.ofList t.text := by
    intro t ht
    rw [(alone t ht).slice, written, List.flatMap_nil, List.append_nil]
  refine ⟨fun t ht => (alone t ht).nonempty, fun t ht => (alone t ht).boundaries, slices, ?_,
    h.ordered, fun e => ?_, fun e hp => ?_, h.touching, fun t ht k => ?_, fun e hu => ?_⟩
  · intro t ht
    obtain ⟨rest, lexeme⟩ := h.isLexeme t ht
    exact lexeme.not_isBlank
  · rw [e] at h
    have counted := h.countP_covers
    rwa [Nat.zero_add, ← e] at counted
  · rw [e] at h
    have found := h.exists_parenthesis hp
    rwa [Nat.zero_add, ← e] at found
  · rw [slices t ht, keyword?, Keyword.ofText?_eq_some_iff, ← String.toList_inj,
      String.toList_ofList]
  · rw [e] at h
    exact h.stretch_text hu

end Token

end RuleFormula
