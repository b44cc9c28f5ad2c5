import RuleFormula.Memo.Computation
import RuleFormula.Proofs.Memo.Owners

/-!
# Computations that meet a specification

A specification says of each key how its computation may end. `Computation.Meets` checks a
computation against a specification from its text alone: wherever it asks for a key, the way to
compute that key must meet what is specified of it, and what comes next may rely on it. Such a
computation keeps a memo sound and ends as specified, whatever the memo holds (`Meets.keeps`): a
value that it finds was computed by the same specification.
-/

namespace RuleFormula

variable {κ ν ε α : Type}

/-- How a call ended, without the cell of the value. -/
def Outcome.plain : Outcome ε (Shared ν) → Outcome ε ν
  | .returned result => .returned (result.map (·.value))
  | .aborted fault => .aborted fault

/-- Sharing a result does not change what it is. -/
lemma Outcome.plain_share (cell : Nat) (result : Except ε ν) :
    Outcome.plain (.returned (Memo.share cell result)) = .returned result := by
  cases result with
  | ok v => rfl
  | error e => rfl

/-- A call that ended with a value ended with it in some cell. -/
lemma Outcome.eq_of_plain_eq_ok {outcome : Outcome ε (Shared ν)} {v : ν}
    (h : outcome.plain = .returned (.ok v)) :
    ∃ s, outcome = .returned (.ok s) ∧ s.value = v := by
  cases outcome with
  | aborted fault => cases h
  | returned result =>
    cases result with
    | error e => cases h
    | ok s =>
      cases h
      exact ⟨s, rfl, rfl⟩

/-- The values that a key may have. -/
def Suits (spec : κ → Outcome ε ν → Prop) (key : κ) (v : ν) : Prop := spec key (.returned (.ok v))

namespace Computation

/-- All ways through a computation end in a permitted outcome, and it asks for each key with a
computation that meets the specification of that key. -/
def Meets (spec : κ → Outcome ε ν → Prop) : Computation κ ν ε → (Outcome ε ν → Prop) → Prop
  | done result, post => post (.returned result)
  | abort fault, post => post (.aborted fault)
  | clear next, post | await _ _ next, post => Meets spec next post
  | get key body next, post =>
    Meets spec (body ()) (spec key) ∧
    ∀ outcome : Outcome ε (Shared ν), spec key outcome.plain → Meets spec (next outcome) post

end Computation

namespace Memo

/-- What is done to a memo keeps it sound, and ends in a permitted outcome. -/
def Keeps (good : κ → ν → Prop) (f : Memo κ ν → Outcome ε α × Memo κ ν)
    (post : Outcome ε α → Prop) : Prop :=
  ∀ owners m, Sound good owners m → post (f m).1 ∧ ∃ more, Sound good (owners ++ more) (f m).2

variable [DecidableEq κ] {spec : κ → Outcome ε ν → Prop}

/-- A call ends as its key demands, with a value that was found or computed. -/
lemma Keeps.getWith {key : κ} {body : Memo κ ν → Outcome ε ν × Memo κ ν}
    (h : Keeps (Suits spec) body (spec key)) :
    Keeps (Suits spec) (fun m => m.getWith key body) (fun outcome => spec key outcome.plain) := by
  intro owners m hm
  obtain ⟨more, hl, hc⟩ := hm.lookup key
  simp only [Memo.getWith]
  generalize m.lookup key = found at hl hc
  obtain ⟨cell, m⟩ := found
  dsimp only at hl hc ⊢
  cases hv : m.value? cell with
  | some v =>
    -- a value that was there suits its key, whoever put it there
    exact ⟨hl.suits hc hv, more, hl.of_value?_eq (hl.toOwned.hit key cell) (fun _ => rfl)⟩
  | none =>
    obtain ⟨hpost, more', hb⟩ :=
      h _ _ (hl.of_value?_eq (hl.toOwned.start key cell) (fun _ => rfl))
    have hc' := getElem?_append_some hc more'
    generalize body (m.start key cell) = ended at hpost hb
    obtain ⟨outcome, m'⟩ := ended
    dsimp only at hpost hb ⊢
    cases outcome with
    | aborted fault =>
      refine ⟨hpost, more ++ more', ?_⟩
      rw [← List.append_assoc]
      exact hb.of_value?_eq (hb.toOwned.log _) (fun _ => rfl)
    | returned result =>
      refine ⟨(Outcome.plain_share cell result).symm ▸ hpost, more ++ more', ?_⟩
      rw [← List.append_assoc]
      have hf := hb.of_value?_eq ((hb.toOwned.finish key cell result).settle key)
        (value?_finish m' key cell result)
      refine hf.fill hc' fun v e => ?_
      subst e
      exact hpost

end Memo

namespace Computation

variable [DecidableEq κ] {spec : κ → Outcome ε ν → Prop}

/-- A computation that meets a specification keeps a sound memo sound and ends as permitted. -/
theorem Meets.keeps {c : Computation κ ν ε} {post : Outcome ε ν → Prop} (h : c.Meets spec post) :
    Memo.Keeps (Suits spec) c.run post := by
  induction c generalizing post with
  | done result =>
    intro owners m hm
    exact ⟨h, [], (List.append_nil owners).symm ▸ hm⟩
  | abort fault =>
    intro owners m hm
    exact ⟨h, [], (List.append_nil owners).symm ▸ hm⟩
  | clear next ih =>
    intro owners m hm
    exact ih h owners m.clear (hm.of_value?_eq hm.toOwned.clear fun _ => rfl)
  | await key parts next ih =>
    intro owners m hm
    exact ih h owners _ (hm.of_value?_eq (hm.toOwned.log _) fun _ => rfl)
  | get key body next ihbody ihnext =>
    intro owners m hm
    obtain ⟨hbody, hnext⟩ := h
    obtain ⟨hpost, more, hm'⟩ := Memo.Keeps.getWith (ihbody () hbody) owners m hm
    obtain ⟨hpost, more', hm''⟩ := ihnext _ (hnext _ hpost) _ _ hm'
    refine ⟨hpost, more ++ more', ?_⟩
    rw [← List.append_assoc]
    exact hm''

end Computation

end RuleFormula
