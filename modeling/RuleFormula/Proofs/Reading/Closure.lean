import Mathlib.Tactic.Lemma
import RuleFormula.Reading.Expression

/-!
# What the readers make of the answers of a resolver

The readers combine what the resolver answers by the constants and the operations on formulas, and
by nothing else. So a property that the constants have, that the operations keep and that all
answers have is a property of every formula that is read (`gives_readM`). The resolver may have a
state, and need not give the same answer twice.
-/

namespace RuleFormula

/-- A property that the truth values have and the operations keep. -/
structure Formula.Kept (P : Formula → Prop) : Prop where
  top : P .top
  bot : P .bot
  grouped {p : Formula} : P p → P p.grouped
  negate {p : Formula} : P p → P p.negate
  conj {ps : List Formula} : (∀ p ∈ ps, P p) → P (Formula.conj ps)
  disj {ps : List Formula} : (∀ p ∈ ps, P p) → P (Formula.disj ps)

namespace Reading

variable {σ α β : Type}

/-- What a step on a state ends with has a property, whatever the state in which it begins. -/
def Ends (P : α → Prop) (x : StateM σ α) : Prop := ∀ s a s', x.run s = (a, s') → P a

/-- A step that does nothing ends with what it is given. -/
lemma Ends.pure {P : α → Prop} {a : α} (h : P a) : Ends P (pure a : StateM σ α) := by
  rintro s _ _ ⟨⟩
  exact h

/-- A step ends well when its first part does and the second does after each good end of the first.
-/
lemma Ends.bind {P : α → Prop} {Q : β → Prop} {x : StateM σ α} {f : α → StateM σ β}
    (hx : Ends P x) (hf : ∀ a, P a → Ends Q (f a)) : Ends Q (x >>= f) := by
  intro s b s' h
  rw [StateT.run_bind] at h
  exact hf _ (hx s _ _ rfl) _ b s' h

/-- What a reader gives has a property, whatever the state in which it begins. -/
def Gives (P : α → Prop) (x : ExceptT ParseError (StateM σ) α) : Prop :=
  Ends (fun r => ∀ a, r = .ok a → P a) x.run

/-- A reader that reads nothing gives what it is given. -/
lemma Gives.pure {P : α → Prop} {a : α} (h : P a) :
    Gives P (pure a : ExceptT ParseError (StateM σ) α) :=
  Ends.pure fun _ e => Except.ok.inj e ▸ h

/-- A reader that ends with an error gives nothing. -/
lemma Gives.throw {P : α → Prop} (e : ParseError) :
    Gives P (throw e : ExceptT ParseError (StateM σ) α) :=
  Ends.pure nofun

/-- A reader gives something good when its second part does for each good thing that the first
gives. -/
lemma Gives.bind {P : α → Prop} {Q : β → Prop} {x : ExceptT ParseError (StateM σ) α}
    {f : α → ExceptT ParseError (StateM σ) β} (hx : Gives P x) (hf : ∀ a, P a → Gives Q (f a)) :
    Gives Q (x >>= f) := by
  rw [Gives, ExceptT.run_bind]
  refine Ends.bind hx (fun r hr => ?_)
  cases r with
  | ok a => exact hf a (hr a rfl)
  | error e => exact Ends.pure nofun

/-- A reader may ask the resolver. -/
lemma Gives.lift {P : α → Prop} {x : StateM σ α} (h : Ends P x) :
    Gives P (ExceptT.lift x : ExceptT ParseError (StateM σ) α) := by
  rw [Gives, ExceptT.run_lift, map_eq_pure_bind]
  exact h.bind fun a ha => .pure fun _ e => Except.ok.inj e ▸ ha

variable {P : Formula → Prop} {lookahead : Lookahead} {ask : String → StateM σ (Option Formula)}

/-- What a resolver answers has a property, whatever state it is in. -/
def Answers (P : Formula → Prop) (ask : String → StateM σ (Option Formula)) : Prop :=
  ∀ name, Ends (fun found => ∀ p, found = some p → P p) (ask name)

/-- A name that is found names what the resolver answered. -/
lemma Answers.resolveSpan (ha : Answers P ask) (span : List Char) (ts : List Token) :
    Ends (fun found => ∀ p n, found = some (p, n) → P p) (resolveSpan lookahead ask span ts) := by
  have here {found : Option Formula} (hf : ∀ p, found = some p → P p) :
      ∀ p n, found.map (fun p => (p, 0)) = some (p, n) → P p := by
    intro p n e
    obtain ⟨q, hq, e⟩ := Option.map_eq_some_iff.1 e
    exact (Prod.mk.inj e).1 ▸ hf q hq
  induction ts generalizing span with
  | nil =>
    rw [RuleFormula.resolveSpan]
    refine (ha _).bind fun found hf => ?_
    dsimp only
    split <;> exact .pure (here hf)
  | cons t ts ih =>
    rw [RuleFormula.resolveSpan]
    refine (ha _).bind fun found hf => ?_
    dsimp only
    split
    · exact .pure (here hf)
    · refine (ih _).bind fun later hl => ?_
      cases later with
      | none => exact .pure (here hf)
      | some r =>
        refine .pure fun p n e => ?_
        obtain ⟨rfl, _⟩ := Prod.mk.inj (Option.some.inj e)
        exact hl _ _ rfl

/-- All readers of a list of tokens give formulas with a property. -/
structure Reads (P : Formula → Prop) (lookahead : Lookahead)
    (ask : String → StateM σ (Option Formula)) (ts : List Token) : Prop where
  term : Gives (P ·.formula) (term lookahead ask ts)
  operand (c : Connective) : Gives (P ·.formula) (operand lookahead ask c ts)
  chain (c : Connective) : Gives (P ·.formula) (chain lookahead ask c ts)
  further (c : Connective) : Gives (fun r => ∀ p ∈ r.formulas, P p) (further lookahead ask c ts)

/-- Operands with a property are combined to a formula with it. -/
lemma Connective.combine_kept (hk : Formula.Kept P) (c : Connective) {p : Formula}
    {more : List Formula} (hp : P p) (hm : ∀ q ∈ more, P q) : P (c.combine p more) := by
  cases more with
  | nil => exact hp
  | cons q more =>
    have all : ∀ r ∈ p :: q :: more, P r := List.forall_mem_cons.2 ⟨hp, hm⟩
    cases c with
    | and => exact hk.conj all
    | or => exact hk.disj all

/-- A term is a truth value, what is in parentheses or under a negation, or an answer. -/
lemma gives_term (hk : Formula.Kept P) (ha : Answers P ask) {ts : List Token}
    (ih : ∀ ts' : List Token, ts'.length < ts.length → Reads P lookahead ask ts') :
    Gives (P ·.formula) (term lookahead ask ts) := by
  cases ts with
  | nil =>
    rw [term]
    exact .throw _
  | cons t rest =>
    have ih := ih rest (Nat.lt_succ_self _)
    rw [term]
    split
    · exact .pure hk.top
    · exact .pure hk.bot
    · refine (ih.chain .or).bind fun inner hi => ?_
      split
      · split
        · exact .pure (hk.grouped hi)
        · exact .throw _
      · exact .throw _
    · exact ih.term.bind fun p hp => .pure (hk.negate hp)
    · exact .throw _
    · refine (Gives.lift (ha.resolveSpan _ _)).bind fun found hf => ?_
      cases found with
      | none => exact .throw _
      | some r => exact .pure (hf _ _ rfl)

/-- Operands with a connective between them give a formula with the property, if shorter lists of
tokens do. -/
lemma gives_chain (hk : Formula.Kept P) (c : Connective) {ts : List Token}
    (ho : Gives (P ·.formula) (operand lookahead ask c ts))
    (ih : ∀ ts' : List Token, ts'.length < ts.length → Reads P lookahead ask ts') :
    Gives (P ·.formula) (chain lookahead ask c ts) := by
  rw [chain]
  refine ho.bind fun first hf => ?_
  refine ((ih _ first.shorter).further c).bind fun more hm => ?_
  exact .pure (c.combine_kept hk hf hm)

/-- Further operands have the property, if what is read from shorter lists of tokens has. -/
lemma gives_further (c : Connective) {ts : List Token}
    (ih : ∀ ts' : List Token, ts'.length < ts.length → Reads P lookahead ask ts') :
    Gives (fun r => ∀ p ∈ r.formulas, P p) (further lookahead ask c ts) := by
  cases ts with
  | nil =>
    rw [further]
    exact .pure (List.forall_mem_nil _)
  | cons t rest =>
    rw [further]
    split
    · refine ((ih rest (Nat.lt_succ_self _)).operand c).bind fun p hp => ?_
      refine ((ih _ (Nat.lt_succ_of_lt p.shorter)).further c).bind fun more hm => ?_
      exact .pure (List.forall_mem_cons.2 ⟨hp, hm⟩)
    · exact .pure (List.forall_mem_nil _)

/-- All readers give formulas with the property, by the number of tokens. -/
lemma reads (hk : Formula.Kept P) (ha : Answers P ask) (ts : List Token) :
    Reads P lookahead ask ts := by
  -- by the number of tokens, and among readers of one list from terms up to disjunctions
  induction h : ts.length using Nat.strongRecOn generalizing ts with
  | ind n ih =>
    subst h
    have ih (ts' : List Token) (h : ts'.length < ts.length) : Reads P lookahead ask ts' :=
      ih _ h ts' rfl
    have ht := gives_term hk ha ih
    have hand : Gives (P ·.formula) (operand lookahead ask .and ts) := by
      rw [operand]
      exact ht
    have hor : Gives (P ·.formula) (operand lookahead ask .or ts) := by
      rw [operand]
      exact gives_chain hk .and hand ih
    have ho (c : Connective) : Gives (P ·.formula) (operand lookahead ask c ts) := by
      cases c with
      | and => exact hand
      | or => exact hor
    exact ⟨ht, ho, fun c => gives_chain hk c (ho c) ih, fun c => gives_further c ih⟩

/-- Every formula that is read of a text has a property that the answers have and the operations
keep. -/
theorem gives_readM (hk : Formula.Kept P) (ha : Answers P ask) (text : String) :
    Gives P (Formula.readM lookahead ask text) := by
  unfold Formula.readM
  split
  · exact .throw _
  · unfold whole
    refine ((reads hk ha _).chain .or).bind fun p hp => ?_
    split
    · exact .pure hp
    · split <;> exact .throw _

end Reading

end RuleFormula
