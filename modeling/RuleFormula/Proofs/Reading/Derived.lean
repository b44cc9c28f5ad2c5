import RuleFormula.Proofs.Reading.Closure
import RuleFormula.Proofs.Reading.Grammar

/-!
# What is derived, and from which tokens

Whatever is derived from tokens is made of what the names in them stand for, so that a property
which the operations keep goes from there to all that is derived (`Derives.keeps`). Where the
shortest spans are taken for names, more tokens at the end do not change what is derived from the
first ones (`Derives.append`); fewer ones never do (`Derives.cut`).
-/

namespace RuleFormula

open Token

namespace Reading

variable {lookahead : Lookahead} {resolve : String → Option Formula} {s : Symbol} {e e' : Tree}
  {c : Connective} {span : List Char} {n : Nat} {p : Formula} {ts us rest mid : List Token}
  {P : Formula → Prop}

/-! ## The names in a text -/

variable (lookahead resolve) in
/-- A formula is found by a name that begins with one of the tokens. -/
def Named (ts : List Token) (p : Formula) : Prop :=
  ∃ us t vs n, ts = us ++ t :: vs ∧ t.keyword? = none ∧ IsName lookahead resolve t.text vs n p

/-- A name among the last tokens is a name among all of them. -/
lemma Named.of_suffix (h : Named lookahead resolve ts p) (hs : ts <:+ us) :
    Named lookahead resolve us p := by
  obtain ⟨us', t, vs, n, rfl, hk, name⟩ := h
  obtain ⟨before, rfl⟩ := hs
  exact ⟨before ++ us', t, vs, n, (List.append_assoc _ _ _).symm, hk, name⟩

/-- What comes after a derivation are the last of the tokens. -/
lemma Derives.suffix (h : Derives lookahead resolve s ts e rest) : rest <:+ ts := by
  induction h with
  | top _ | bot _ => exact List.suffix_cons _ _
  | parentheses _ _ _ ih => exact ((List.suffix_cons _ _).trans ih).trans (List.suffix_cons _ _)
  | not _ _ ih => exact ih.trans (List.suffix_cons _ _)
  | name _ _ => exact (List.drop_suffix _ _).trans (List.suffix_cons _ _)
  | chain _ _ ih ih' => exact ih'.trans ih
  | done _ => exact List.suffix_rfl
  | more _ _ _ ih ih' => exact (ih'.trans ih).trans (List.suffix_cons _ _)

/-- What a derivation tree stands for has a property: its formula, or each one of further
operands. -/
def Has (P : Formula → Prop) : Symbol → Tree → Prop
  | .further _, e => ∀ p ∈ e.values, P p
  | _, e => P e.value

/-- The property of an operand is the one of its formula. -/
lemma has_operand_iff : Has P c.operandSymbol e ↔ P e.value := by
  cases c <;> rfl

/-- A property that the operations keep holds of what is derived, where it holds of what the names
in the text stand for. -/
theorem Derives.keeps (hk : Formula.Kept P) (h : Derives lookahead resolve s ts e rest) :
    (∀ p, Named lookahead resolve ts p → P p) → Has P s e := by
  have tail {t : Token} {ts : List Token} (hn : ∀ p, Named lookahead resolve (t :: ts) p → P p) :
      ∀ p, Named lookahead resolve ts p → P p :=
    fun p hp => hn p (hp.of_suffix (List.suffix_cons t ts))
  induction h with
  | top _ => exact fun _ => hk.top
  | bot _ => exact fun _ => hk.bot
  | parentheses _ _ _ ih => exact fun hn => hk.grouped (ih (tail hn))
  | not _ _ ih => exact fun hn => hk.negate (ih (tail hn))
  | name ht name => exact fun hn => hn _ ⟨[], _, _, _, rfl, ht, name⟩
  | @chain c _ _ _ first further h _ ih ih' =>
    -- the names after the first operand are names in the text
    intro hn
    have value := c.combine_kept hk (has_operand_iff.1 (ih hn))
      (ih' fun p hp => hn p (hp.of_suffix h.suffix))
    rwa [← Tree.value_chain] at value
  | done _ => exact fun _ => List.forall_mem_nil _
  | more _ h _ ih ih' =>
    intro hn
    have later := ih' fun p hp => tail hn p (hp.of_suffix h.suffix)
    exact List.forall_mem_cons.2 ⟨has_operand_iff.1 (ih (tail hn)), later⟩

/-- A text that is a name, from its first token to its last one, is read as what it names. -/
lemma read_of_isName {text : String} {t : Token} (ht : tokenize text.toList = t :: ts)
    (hk : t.keyword? = none) (name : IsName lookahead resolve t.text ts ts.length p) :
    Formula.read lookahead resolve text = .ok p := by
  have term := Derives.name hk name
  rw [List.drop_length, ← ht] at term
  exact read_eq_ok_iff.2 ⟨_, .chain (.chain term (.done [])) (.done []), rfl⟩

/-! ## More tokens -/

/-- A span that ends before other tokens does not know them. -/
lemma spanText_append (hn : n ≤ ts.length) (us : List Token) :
    spanText span (ts ++ us) n = spanText span ts n := by
  rw [spanText, spanText, List.take_append_of_le_length hn]

/-- The search for the shortest span does not see tokens after it. -/
lemma IsName.append (h : IsName .shortest resolve span ts n p) (us : List Token) :
    IsName .shortest resolve span (ts ++ us) n p := by
  refine ⟨?_, ?_, fun _ k hk => ?_, nofun⟩
  · rw [List.length_append]
    exact Nat.le_add_right_of_le h.within
  · rw [spanText_append h.within]
    exact h.accepted
  · rw [spanText_append (Nat.le_of_lt (Nat.lt_of_lt_of_le hk h.within))]
    exact h.shortest rfl k hk

/-- What is derived from tokens is derived from them where others come after them. -/
theorem Derives.append (h : Derives .shortest resolve s ts e rest) (us : List Token) :
    Derives .shortest resolve s (ts ++ us) e (rest ++ us) := by
  induction h with
  | top hk => exact .top hk
  | bot hk => exact .bot hk
  | parentheses hk hu _ ih => exact .parentheses hk hu ih
  | not hk _ ih => exact .not hk ih
  | name hk name =>
    have longer := Derives.name hk (name.append us)
    rwa [List.drop_append_of_le_length name.within] at longer
  | chain _ _ ih ih' => exact .chain ih ih'
  | done ts => exact .done _
  | more hk _ _ ih ih' => exact .more hk ih ih'

/-- The search sees no other names where there are fewer tokens after the name. -/
lemma IsName.of_append (h : IsName lookahead resolve span (ts ++ us) n p) (hn : n ≤ ts.length) :
    IsName lookahead resolve span ts n p := by
  refine ⟨hn, spanText_append hn us ▸ h.accepted, fun hs k hk => ?_, fun hl k hk hnk => ?_⟩
  · rw [← spanText_append (Nat.le_of_lt (Nat.lt_of_lt_of_le hk hn)) us]
    exact h.shortest hs k hk
  · rw [← spanText_append hk us]
    exact h.longest hl k (List.length_append ▸ Nat.le_add_right_of_le hk) hnk

/-- What is derived takes up the first tokens, and is derived from these where only some of the
tokens after them are there. -/
theorem Derives.cut (h : Derives lookahead resolve s ts e rest) :
    ∃ us, ts = us ++ rest ∧ ∀ vs, vs <+: rest → Derives lookahead resolve s (us ++ vs) e vs := by
  induction h with
  | @top t _ hk => exact ⟨[t], rfl, fun _ _ => .top hk⟩
  | @bot t _ hk => exact ⟨[t], rfl, fun _ _ => .bot hk⟩
  | @parentheses t u ts rest inner hk hu _ ih =>
    obtain ⟨us, rfl, fewer⟩ := ih
    refine ⟨t :: (us ++ [u]), congrArg _ (List.append_assoc us [u] rest).symm, fun vs hv => ?_⟩
    rw [List.cons_append, List.append_assoc]
    exact .parentheses hk hu (fewer (u :: vs) (List.cons_prefix_cons.2 ⟨rfl, hv⟩))
  | @not t _ _ _ hk _ ih =>
    obtain ⟨us, rfl, fewer⟩ := ih
    exact ⟨t :: us, rfl, fun vs hv => .not hk (fewer vs hv)⟩
  | @name t ts n p hk name =>
    refine ⟨t :: ts.take n, congrArg _ (List.take_append_drop n ts).symm, ?_⟩
    rintro vs ⟨ws, hw⟩
    have length : (ts.take n).length = n := List.length_take_of_le name.within
    have within : n ≤ (ts.take n ++ vs).length := by
      rw [List.length_append, length]
      exact Nat.le_add_right n _
    rw [← List.take_append_drop n ts, ← hw, ← List.append_assoc] at name
    have shorter := Derives.name hk (name.of_append within)
    rwa [List.drop_left' length] at shorter
  | chain _ _ ih ih' =>
    obtain ⟨us, rfl, fewer⟩ := ih
    obtain ⟨us', rfl, fewer'⟩ := ih'
    refine ⟨us ++ us', (List.append_assoc _ _ _).symm, fun vs hv => ?_⟩
    rw [List.append_assoc]
    exact .chain (fewer _ ((List.prefix_append_right_inj us').2 hv)) (fewer' vs hv)
  | done ts => exact ⟨[], rfl, fun vs _ => .done vs⟩
  | @more _ t _ _ _ _ _ hk _ _ ih ih' =>
    obtain ⟨us, rfl, fewer⟩ := ih
    obtain ⟨us', rfl, fewer'⟩ := ih'
    refine ⟨t :: (us ++ us'), congrArg _ (List.append_assoc _ _ _).symm, fun vs hv => ?_⟩
    rw [List.cons_append, List.append_assoc]
    exact .more hk (fewer _ ((List.prefix_append_right_inj us').2 hv)) (fewer' vs hv)

/-- The tokens that are taken up, alone. -/
lemma Derives.alone (h : Derives lookahead resolve s ts e rest) :
    ∃ us, ts = us ++ rest ∧ Derives lookahead resolve s us e [] := by
  obtain ⟨us, rfl, fewer⟩ := h.cut
  refine ⟨us, rfl, ?_⟩
  have derived := fewer [] List.nil_prefix
  rwa [List.append_nil] at derived

/-- Further operands may come after further operands. -/
lemma Derives.further_append (h : Derives lookahead resolve (.further c) ts e mid)
    (h' : Derives lookahead resolve (.further c) mid e' rest) :
    ∃ es, Derives lookahead resolve (.further c) ts es rest ∧
      es.values = e.values ++ e'.values := by
  generalize hs : Symbol.further c = s at h
  induction h with
  | done ts =>
    cases hs
    exact ⟨e', h', rfl⟩
  | more hk next _ _ ih =>
    cases hs
    obtain ⟨es, derived, values⟩ := ih h' rfl
    refine ⟨_, .more hk next derived, ?_⟩
    rw [Tree.values, Tree.values, values, List.cons_append]
  | _ => cases hs

end Reading

end RuleFormula
