import RuleFormula.Proofs.Reading.Failure
import RuleFormula.Proofs.Reading.OwnName
import RuleFormula.Proofs.Reading.Sides

/-!
# Texts for which the lookahead does not matter

The shortest and the longest span are the same where the resolver accepts one span at most from each
word on. In such a text the same is derived under each lookahead, and reading fails in the same
places (`Derives.under`, `Fails.under`), so that formulas and rules are read as the same, errors
included. The names of atoms are such in all texts when none is another one up to the end of a
token; a name with which another one begins so is itself read in different ways
(`read_any_lookahead`).
-/

namespace RuleFormula

open Token

namespace Reading

variable {lookahead other : Lookahead} {resolve : String → Option Formula} {s : Symbol} {e : Tree}
  {err : ParseError} {t : Token} {ts us rest : List Token} {n : Nat} {p : Formula} {A : List Atom}
  {a b : Atom}

variable (resolve) in
/-- From each word among the tokens on, the resolver accepts one span at most. -/
def Univocal (ts : List Token) : Prop :=
  ∀ us t vs, ts = us ++ t :: vs → t.keyword? = none → ∀ j ≤ vs.length, ∀ k ≤ vs.length,
    resolve (String.ofList (spanText t.text vs j)) ≠ none →
    resolve (String.ofList (spanText t.text vs k)) ≠ none → j = k

/-- Where one span at most is accepted from each word on, this is so among some of the tokens. -/
lemma Univocal.of_infix (h : Univocal resolve us) (hi : ts <:+: us) : Univocal resolve ts := by
  obtain ⟨before, after, rfl⟩ := hi
  rintro vs t ws rfl hk i hi j hj accepted accepted'
  have split : before ++ (vs ++ t :: ws) ++ after = (before ++ vs) ++ t :: (ws ++ after) := by
    simp only [List.append_assoc, List.cons_append]
  rw [← spanText_append hi after] at accepted
  rw [← spanText_append hj after] at accepted'
  have longer {k : Nat} (hk : k ≤ ws.length) : k ≤ (ws ++ after).length :=
    List.length_append ▸ Nat.le_add_right_of_le hk
  exact h _ t _ split hk i (longer hi) j (longer hj) accepted accepted'

/-- Where one span at most is accepted from each word on, this is so among the last tokens. -/
lemma Univocal.of_suffix (h : Univocal resolve us) (hs : ts <:+ us) : Univocal resolve ts :=
  h.of_infix hs.isInfix

/-- Where one span at most is accepted from each word on, this is so behind the first token. -/
lemma Univocal.tail (h : Univocal resolve (t :: ts)) : Univocal resolve ts :=
  h.of_suffix (List.suffix_cons t ts)

/-! ## Reading under another lookahead -/

/-- The only span that is accepted is the name under each lookahead. -/
lemma IsName.under (h : IsName lookahead resolve t.text ts n p) (hk : t.keyword? = none)
    (hu : Univocal resolve (t :: ts)) (other : Lookahead) : IsName other resolve t.text ts n p := by
  have accepted : resolve (String.ofList (spanText t.text ts n)) ≠ none := by
    rw [h.accepted]
    exact Option.some_ne_none p
  have alone {k : Nat} (hl : k ≤ ts.length) (hn : k ≠ n) :
      resolve (String.ofList (spanText t.text ts k)) = none := by
    by_contra accepted'
    exact hn (hu [] t ts rfl hk k hl n h.within accepted' accepted)
  refine ⟨h.within, h.accepted, fun _ k hl => ?_, fun _ k hl hn => alone hl (Nat.ne_of_gt hn)⟩
  exact alone (Nat.le_of_lt (Nat.lt_of_lt_of_le hl h.within)) (Nat.ne_of_lt hl)

/-- What is derived with one lookahead is derived with the other, where spans leave no choice. -/
theorem Derives.under (h : Derives lookahead resolve s ts e rest) (other : Lookahead) :
    Univocal resolve ts → Derives other resolve s ts e rest := by
  induction h with
  | top hk => exact fun _ => .top hk
  | bot hk => exact fun _ => .bot hk
  | parentheses hk hu _ ih => exact fun h => .parentheses hk hu (ih h.tail)
  | not hk _ ih => exact fun h => .not hk (ih h.tail)
  | name hk name => exact fun h => .name hk (name.under hk h other)
  | chain first _ ih ih' => exact fun h => .chain (ih h) (ih' (h.of_suffix first.suffix))
  | done ts => exact fun _ => .done ts
  | more hk next _ ih ih' => exact fun h => .more hk (ih h.tail) (ih' (h.tail.of_suffix next.suffix))

/-- What fails with one lookahead fails with the other and the same error, where spans leave no
choice. -/
theorem Fails.under (h : Fails lookahead resolve s ts err) (other : Lookahead) :
    Univocal resolve ts → Fails other resolve s ts err := by
  induction h with
  | here h => exact fun _ => .here h
  | inside hk _ ih => exact fun h => .inside hk (ih h.tail)
  | unclosed hk inner hf hc => exact fun h => .unclosed hk (inner.under other h.tail) hf hc
  | not hk _ ih => exact fun h => .not hk (ih h.tail)
  | first _ ih => exact fun h => .first (ih h)
  | further first _ ih =>
    exact fun h => .further (first.under other h) (ih (h.of_suffix first.suffix))
  | next hk _ ih => exact fun h => .next hk (ih h.tail)
  | later hk next _ ih =>
    intro h
    exact .later hk (next.under other h.tail) (ih (h.tail.of_suffix next.suffix))

/-- An expression is read from all tokens in one way under each lookahead. -/
lemma wholeOf_lookahead (h : Univocal resolve ts) (lookahead other : Lookahead) :
    wholeOf lookahead resolve ts = wholeOf other resolve ts := by
  cases read : wholeOf lookahead resolve ts with
  | ok p =>
    obtain ⟨e, derived, value⟩ := wholeOf_eq_ok_iff.1 read
    exact (wholeOf_eq_ok_iff.2 ⟨e, derived.under other h, value⟩).symm
  | error err =>
    symm
    apply wholeOf_eq_error_iff.2
    obtain fails | ⟨e, t, rest, derived, hf, found⟩ := wholeOf_eq_error_iff.1 read
    · exact .inl (fails.under other h)
    · exact .inr ⟨e, t, rest, derived.under other h, hf, found⟩

/-- Formulas are read alike with both lookaheads, where spans leave no choice. -/
lemma read_lookahead {text : String} (h : Univocal resolve (tokenize text.toList))
    (lookahead other : Lookahead) :
    Formula.read lookahead resolve text = Formula.read other resolve text := by
  by_cases some : tokenize text.toList = []
  · rw [Formula.read_eq, Formula.read_eq, some]
  · rw [Formula.read_eq_wholeOf some, Formula.read_eq_wholeOf some, wholeOf_lookahead h]

/-- The tokens of a text without the implication sign, or those on both sides of the first one. -/
lemma exists_sides (ts : List Token) :
    (∀ t ∈ ts, t.keyword? ≠ some .implies) ∨
    ∃ before sign after, ts = before ++ sign :: after ∧ sign.keyword? = some .implies ∧
      ∀ t ∈ before, t.keyword? ≠ some .implies := by
  cases found : ts.find? Rule.isSign with
  | none =>
    refine .inl fun t ht hk => ?_
    exact List.find?_eq_none.1 found t ht (decide_eq_true hk)
  | some sign =>
    obtain ⟨hs, before, after, rfl, hb⟩ := List.find?_eq_some_iff_append.1 found
    refine .inr ⟨before, sign, after, rfl, of_decide_eq_true hs, fun t ht hk => ?_⟩
    have here := hb t ht
    rw [Rule.isSign, decide_eq_true hk] at here
    cases here

/-- Rules are read alike with both lookaheads, where spans leave no choice. -/
lemma readRule_lookahead {text : String} (h : Univocal resolve (tokenize text.toList))
    (lookahead other : Lookahead) :
    Rule.read lookahead resolve text = Rule.read other resolve text := by
  obtain signless | ⟨before, sign, after, tokens, hs, hb⟩ := exists_sides (tokenize text.toList)
  · rw [Rule.read_eq_of_signless signless, Rule.read_eq_of_signless signless]
  · rw [tokens] at h
    have first : Univocal resolve before := h.of_infix (List.prefix_append _ _).isInfix
    have last : Univocal resolve after :=
      h.of_suffix ((List.suffix_cons sign after).trans (List.suffix_append before _))
    rw [Rule.read_eq_of_sign tokens hs hb, Rule.read_eq_of_sign tokens hs hb,
      wholeOf_lookahead first lookahead other, wholeOf_lookahead last lookahead other]

/-! ## Names of atoms -/

/-- Of two spans from one word on that are names, the shorter one is a beginning of the longer one.
-/
lemma tokenPrefix_of_spanText {text : String} {us vs : List Token} {j k : Nat}
    (tokens : tokenize text.toList = us ++ t :: vs) (hj : j < k) (hk : k ≤ vs.length)
    (ha : a.name = String.ofList (spanText t.text vs j))
    (hb : b.name = String.ofList (spanText t.text vs k)) : TokenPrefix a.name b.name := by
  have divided := divided_tokenize text.toList
  rw [tokens, append_cons_take_drop us t vs k] at divided
  have again := divided.stretch
  have long : b.name.toList = t.text ++ written (vs.take k) := by
    rw [hb, String.toList_ofList]
    rfl
  have short : a.name.toList = t.text ++ written (vs.take j) := by
    rw [ha, String.toList_ofList]
    rfl
  rw [← long] at again
  refine @TokenPrefix.of_start _ _ t.start (j + 1) ?_ (Nat.succ_pos j) ?_
  · rw [again, List.length_cons, List.length_take, Nat.min_eq_left hk]
    exact Nat.succ_lt_succ hj
  · rw [again, short, List.take_succ_cons, List.take_take, Nat.min_eq_left (Nat.le_of_lt hj),
      written_cons]
    rfl

/-- In each text one name of an atom at most is found from a word on, where no name is a beginning
of another one. -/
lemma univocal_of_names (h : (A.map (·.name)).Nodup)
    (apart : ∀ a ∈ A, ∀ b ∈ A, a ≠ b → ¬ TokenPrefix a.name b.name) (text : String) :
    Univocal (resolveNames (A.map .atom)) (tokenize text.toList) := by
  intro us t vs tokens _ j hj k hk accepted accepted'
  obtain ⟨p, found⟩ := Option.ne_none_iff_exists'.1 accepted
  obtain ⟨a, ha, e, _⟩ := (resolveNames_atoms h).1 found
  obtain ⟨q, found'⟩ := Option.ne_none_iff_exists'.1 accepted'
  obtain ⟨b, hb, e', _⟩ := (resolveNames_atoms h).1 found'
  have different {a b : Atom} (hp : TokenPrefix a.name b.name) : a ≠ b :=
    fun e => hp.ne (congrArg _ e)
  obtain less | same | more := Nat.lt_trichotomy j k
  · have begins := tokenPrefix_of_spanText tokens less hk e e'
    exact absurd begins (apart a ha b hb (different begins))
  · exact same
  · have begins := tokenPrefix_of_spanText tokens more hj e' e
    exact absurd begins (apart b hb a ha (different begins))

/-- A name is read as its atom where the longest spans are taken for names. -/
lemma read_longest_own_name (h : (A.map (·.name)).Nodup) (ha : a ∈ A) (plain : IsPlain a.name) :
    Formula.read .longest (resolveNames (A.map .atom)) a.name = .ok (.atom a) := by
  obtain ⟨t, ts, tokens, hk, hg, hw⟩ := isPlain_iff.1 plain
  refine read_of_isName tokens hk ⟨Nat.le_refl _, ?_, nofun, fun _ k hk hn => ?_⟩
  · rw [spanText_eq_written hg, List.take_succ_cons, List.take_length, hw, String.ofList_toList]
    exact (resolveNames_atoms h).2 ⟨a, ha, rfl, rfl⟩
  · exact absurd hn (Nat.not_lt.2 hk)

/-- The name of an atom that is read as this atom is found as one name, from its first token to its
last one. -/
lemma isName_of_read_own_name (h : (A.map (·.name)).Nodup)
    (read : Formula.read lookahead (resolveNames (A.map .atom)) a.name = .ok (.atom a)) :
    ∃ t ts n, tokenize a.name.toList = t :: ts ∧ t.gap = [] ∧ ts.length ≤ n ∧
      IsName lookahead (resolveNames (A.map .atom)) t.text ts n (.atom a) := by
  obtain ⟨p, ⟨us, t, ts, n, tokens, hk, name⟩, hp⟩ := named_of_read read
  obtain ⟨b, _, e, rfl⟩ := (resolveNames_atoms h).1 name.accepted
  obtain rfl := List.mem_singleton.1 hp
  have span := (congrArg String.toList e).trans String.toList_ofList
  obtain ⟨rfl, hg, hn, _⟩ := whole_of_spanText tokens span.symm
  exact ⟨t, ts, n, tokens, hg, hn, name⟩

/-- A name with another one as its beginning is not read as its atom where the shortest spans are
taken for names. -/
lemma read_shortest_ne_of_tokenPrefix (h : (A.map (·.name)).Nodup) (hb : b ∈ A)
    (begins : TokenPrefix b.name a.name) :
    Formula.read .shortest (resolveNames (A.map .atom)) a.name ≠ .ok (.atom a) := by
  intro read
  obtain ⟨t, ts, n, tokens, hg, hn, name⟩ := isName_of_read_own_name h read
  obtain ⟨k, hk, hp, e⟩ := begins
  obtain ⟨k, rfl⟩ := Nat.exists_eq_succ_of_ne_zero (Nat.ne_of_gt hp)
  rw [tokens] at hk e
  -- the other name would have been found before
  have none := name.shortest rfl k (Nat.lt_of_lt_of_le (Nat.lt_of_succ_lt_succ hk) hn)
  rw [spanText_eq_written hg, ← e, String.ofList_toList,
    (resolveNames_atoms h).2 ⟨b, hb, rfl, rfl⟩] at none
  cases none

/-- The lookahead makes no difference to the formula or rule that is read of a text, nor to the
error in it, where the resolver accepts one span at most from each word on. The names of atoms are
found so in every text when none of them is a beginning of another one as far as tokens go, and
where one is, a plain name that begins with it is read in two ways. -/
theorem read_any_lookahead :
    (∀ resolve text, Univocal resolve (tokenize text.toList) →
      Formula.read .shortest resolve text = Formula.read .longest resolve text ∧
      Rule.read .shortest resolve text = Rule.read .longest resolve text) ∧
    (∀ A : List Atom, (A.map (·.name)).Nodup →
      ((∀ a ∈ A, ∀ b ∈ A, a ≠ b → ¬ TokenPrefix a.name b.name) → ∀ text,
        Formula.read .shortest (resolveNames (A.map .atom)) text =
          Formula.read .longest (resolveNames (A.map .atom)) text ∧
        Rule.read .shortest (resolveNames (A.map .atom)) text =
          Rule.read .longest (resolveNames (A.map .atom)) text) ∧
      (∀ a ∈ A, IsPlain a.name → (∃ b ∈ A, b ≠ a ∧ TokenPrefix b.name a.name) →
        Formula.read .shortest (resolveNames (A.map .atom)) a.name ≠
          Formula.read .longest (resolveNames (A.map .atom)) a.name)) := by
  refine ⟨fun resolve text h => ?_, fun A h => ⟨fun apart text => ?_, ?_⟩⟩
  · exact ⟨read_lookahead h .shortest .longest, readRule_lookahead h .shortest .longest⟩
  · have univocal := univocal_of_names h apart text
    exact ⟨read_lookahead univocal .shortest .longest,
      readRule_lookahead univocal .shortest .longest⟩
  · rintro a ha plain ⟨b, hb, _, begins⟩
    rw [read_longest_own_name h ha plain]
    exact read_shortest_ne_of_tokenPrefix h hb begins

/-- Where one name is the beginning of another one and both are known, a text is read in two ways;
with only one of them known, in one way. -/
theorem read_any_lookahead_of_names :
    (([⟨0, "x", true⟩, ⟨1, "x OR TRUE", true⟩] : List Atom).map (·.name)).Nodup ∧
    Formula.read .shortest (resolveNames [.atom ⟨0, "x", true⟩, .atom ⟨1, "x OR TRUE", true⟩])
      "x OR TRUE" ≠
      Formula.read .longest (resolveNames [.atom ⟨0, "x", true⟩, .atom ⟨1, "x OR TRUE", true⟩])
        "x OR TRUE" ∧
    Formula.read .shortest (resolveNames [.atom ⟨0, "x", true⟩]) "x OR TRUE" =
      Formula.read .longest (resolveNames [.atom ⟨0, "x", true⟩]) "x OR TRUE" := by
  have distinct : (([⟨0, "x", true⟩, ⟨1, "x OR TRUE", true⟩] : List Atom).map (·.name)).Nodup := by
    decide
  refine ⟨distinct, ?_, ?_⟩
  · refine (read_any_lookahead.2 _ distinct).2 ⟨1, "x OR TRUE", true⟩ (by decide) ?_ ?_
    · exact ⟨nofun, fun _ h => Option.some.inj h ▸ rfl, fun _ h => Option.some.inj h ▸ rfl, _, _, rfl,
        rfl⟩
    · exact ⟨⟨0, "x", true⟩, List.mem_cons_self, by decide, by decide⟩
  · exact ((read_any_lookahead.2 [⟨0, "x", true⟩] (by decide)).1 (by decide) "x OR TRUE").1

end Reading

end RuleFormula
