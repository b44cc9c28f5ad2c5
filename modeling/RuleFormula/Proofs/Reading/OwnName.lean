import RuleFormula.Proofs.Formula.Leaves
import RuleFormula.Proofs.Reading.Derived
import RuleFormula.Proofs.Reading.Lexemes

/-!
# Names read alone

Whatever a text is read as, its atoms come from names that are found in it (`Derives.keeps`). So the
name of an atom is read as this atom only where the whole text is found as the name, from its first
token to its last one. It takes a plain name for this, and no other name on the way
(`Formula.read_own_name_iff`).
-/

namespace RuleFormula

open Text (isBlank)
open Token

namespace Reading

variable {lookahead : Lookahead} {resolve : String → Option Formula} {a : Atom} {text : String}
  {t : Token} {us vs : List Token} {n : Nat}

/-- An atom that is read is found by a name. -/
lemma named_of_read (hr : Formula.read lookahead resolve text = .ok (.atom a)) :
    ∃ p, Named lookahead resolve (tokenize text.toList) p ∧ a ∈ p.leaves := by
  obtain ⟨e, derived, value⟩ := read_eq_ok_iff.1 hr
  by_contra hn
  push Not at hn
  have other : Formula.Over (· ≠ a) e.value :=
    derived.keeps Formula.over_kept fun p hp b hb e => hn p hp (e ▸ hb)
  rw [value] at other
  exact other a (List.mem_singleton_self a) rfl

/-- A span of tokens that is a whole text begins with its first token and goes up to its last one,
with no white space around them. -/
lemma whole_of_spanText (ht : tokenize text.toList = us ++ t :: vs)
    (hs : spanText t.text vs n = text.toList) :
    us = [] ∧ t.gap = [] ∧ vs.length ≤ n ∧ written (t :: vs) = text.toList := by
  have divided := divided_tokenizeFrom 0 text.toList
  rw [← tokenize, ht] at divided
  obtain ⟨after, _, whole⟩ := divided.exists_blank
  -- the span has as many characters as the text, so that nothing is left for the other parts
  have lengths := congrArg List.length whole
  have span : written vs = written (vs.take n) ++ written (vs.drop n) := by
    rw [← written_append, List.take_append_drop]
  rw [← hs, spanText, written_append, written_cons, span] at lengths
  simp only [List.length_append] at lengths
  have hu : written us = [] := List.eq_nil_of_length_eq_zero (by omega)
  have hg : t.gap = [] := List.eq_nil_of_length_eq_zero (by omega)
  have hd : written (vs.drop n) = [] := List.eq_nil_of_length_eq_zero (by omega)
  have some := divided.text_ne_nil
  refine ⟨eq_nil_of_written (fun u h => some u (List.mem_append_left _ h)) hu, hg, ?_, ?_⟩
  · refine List.drop_eq_nil_iff.1 (eq_nil_of_written (fun u h => some u ?_) hd)
    exact List.mem_append_right us (List.mem_cons_of_mem t (List.mem_of_mem_drop h))
  · rw [written_cons, hg, span, hd, List.append_nil, ← hs]
    rfl

end Reading

open Reading

variable {A : List Atom} {a : Atom} {name : String}

/-- A plain name is written with its tokens, of which the first one is a word at its beginning. -/
lemma isPlain_iff : IsPlain name ↔ ∃ t ts, tokenize name.toList = t :: ts ∧ t.keyword? = none ∧
    t.gap = [] ∧ written (t :: ts) = name.toList := by
  constructor
  · intro h
    obtain ⟨t, ts, e, hg, hk⟩ := h.tokenizeFrom_eq 0
    have cut : Cut name.toList [] := h.cut nofun
    refine ⟨t, ts, e, hk, hg, ?_⟩
    rw [← e]
    exact written_tokenizeFrom cut 0
  · rintro ⟨t, ts, e, hk, hg, hw⟩
    have divided := divided_tokenizeFrom 0 name.toList
    rw [← tokenize, e] at divided
    have lexemes := divided.isLexeme
    have some := divided.text_ne_nil
    refine ⟨?_, fun c hc => ?_, fun c hc => ?_, t, ts, e, hk⟩
    · rintro rfl
      cases e
    · obtain ⟨_, hl⟩ := lexemes t List.mem_cons_self
      rw [← hw, written_cons, hg, List.nil_append,
        List.head?_append_of_ne_nil _ hl.ne_nil] at hc
      exact hl.not_isBlank c (List.mem_of_mem_head? hc)
    · obtain ⟨init, u, split⟩ :=
        (List.eq_nil_or_concat' (t :: ts)).resolve_left (List.cons_ne_nil t ts)
      obtain ⟨_, hl⟩ := lexemes u (split ▸ List.mem_append_right init (List.mem_singleton_self u))
      rw [← hw, split, written_concat, List.getLast?_append_of_ne_nil _ hl.ne_nil] at hc
      exact hl.not_isBlank c (List.mem_of_mem_getLast? hc)

namespace Formula

/-- The name of an atom among atoms with different names is read as this atom exactly when it is a
plain name and no other one of the names is its beginning. What else the text may be read as, it is
not this atom. -/
theorem read_own_name_iff (h : (A.map (·.name)).Nodup) (ha : a ∈ A) :
    read .shortest (resolveNames (A.map .atom)) a.name = .ok (.atom a) ↔
      IsPlain a.name ∧ ∀ b ∈ A, b ≠ a → ¬ TokenPrefix b.name a.name := by
  rw [isPlain_iff]
  constructor
  · intro read
    obtain ⟨p, ⟨us, t, vs, n, tokens, hk, name⟩, hp⟩ := named_of_read read
    obtain ⟨b, hb, e, rfl⟩ := (resolveNames_atoms h).1 name.accepted
    obtain rfl := List.mem_singleton.1 hp
    have span := (congrArg String.toList e).trans String.toList_ofList
    obtain ⟨rfl, hg, hn, hw⟩ := whole_of_spanText tokens span.symm
    rw [List.nil_append] at tokens
    refine ⟨⟨t, vs, tokens, hk, hg, hw⟩, fun b hb _ ⟨k, hk, hp, e⟩ => ?_⟩
    -- a shorter span that is a name would have been taken
    obtain ⟨k, rfl⟩ := Nat.exists_eq_succ_of_ne_zero (Nat.ne_of_gt hp)
    rw [tokens] at hk e
    have shorter := name.shortest rfl k (Nat.lt_of_lt_of_le (Nat.lt_of_succ_lt_succ hk) hn)
    rw [spanText_eq_written hg, ← e, String.ofList_toList,
      (resolveNames_atoms h).2 ⟨b, hb, rfl, rfl⟩] at shorter
    cases shorter
  · rintro ⟨⟨t, ts, tokens, hk, hg, hw⟩, apart⟩
    have name : IsName .shortest (resolveNames (A.map .atom)) t.text ts ts.length (.atom a) := by
      refine ⟨Nat.le_refl _, ?_, fun _ k hk => ?_, nofun⟩
      · rw [spanText_eq_written hg, List.take_succ_cons, List.take_length, hw,
          String.ofList_toList]
        exact (resolveNames_atoms h).2 ⟨a, ha, rfl, rfl⟩
      · refine Option.eq_none_iff_forall_not_mem.2 fun p hp => ?_
        obtain ⟨b, hb, e, _⟩ := (resolveNames_atoms h).1 hp
        have begins : TokenPrefix b.name a.name := by
          refine ⟨k + 1, tokens ▸ Nat.succ_lt_succ hk, Nat.succ_pos k, ?_⟩
          rw [e, String.toList_ofList, tokens, spanText_eq_written hg]
        exact apart b hb (fun e => begins.ne (congrArg _ e)) begins
    exact read_of_isName tokens hk name

/-- A name with a keyword in it is read back, and another one is not that begins with it. -/
theorem read_own_name_with_beginning :
    (([⟨0, "x OR", true⟩, ⟨1, "x OR y", true⟩] : List Atom).map (·.name)).Nodup ∧
    read .shortest (resolveNames [atom ⟨0, "x OR", true⟩, atom ⟨1, "x OR y", true⟩]) "x OR" =
      .ok (atom ⟨0, "x OR", true⟩) ∧
    read .shortest (resolveNames [atom ⟨0, "x OR", true⟩, atom ⟨1, "x OR y", true⟩]) "x OR y" ≠
      .ok (atom ⟨1, "x OR y", true⟩) := by
  have distinct : (([⟨0, "x OR", true⟩, ⟨1, "x OR y", true⟩] : List Atom).map (·.name)).Nodup := by
    decide
  refine ⟨distinct, (read_own_name_iff distinct List.mem_cons_self).2 ⟨?_, by decide⟩,
    fun read => ?_⟩
  · exact ⟨nofun, fun _ h => Option.some.inj h ▸ rfl, fun _ h => Option.some.inj h ▸ rfl, _, _, rfl,
      rfl⟩
  · have apart := ((read_own_name_iff distinct (List.mem_cons_of_mem _ List.mem_cons_self)).1 read).2
    exact apart ⟨0, "x OR", true⟩ List.mem_cons_self (by decide) (by decide)

end Formula

end RuleFormula
