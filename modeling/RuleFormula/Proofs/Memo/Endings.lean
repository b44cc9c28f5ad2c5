import RuleFormula.Proofs.Memo.History
import RuleFormula.Proofs.Memo.InFlight

/-!
# The ends of computations

A computation that a thread is inside of ends with an event that names its key and its cell: a value
was produced, an error, or a fault went through it. A thread leaves a computation by the step that
writes this event down, and no other step writes such events (`Step.journal_eq`). So the journal
tells how a computation ended: by the first event of this kind that came after it began
(`Reaches.insideSince`).
-/

namespace RuleFormula

variable {κ ν ε : Type}

/-- The key and the cell of the computation that an event ends. -/
def Event.ended? : Event κ ν → Option (κ × Nat)
  | produced key cell _ | failed key cell | aborted key cell => some (key, cell)
  | lookup _ | clear | hit _ _ | start _ _ | worked _ _ => none

section FirstEnd

variable [DecidableEq κ] {key : κ} {cell : Nat} {e : Event κ ν} {events : List (Event κ ν)}

/-- The first of some events that ends a computation of a key in a cell. As in a journal, the newest
event comes first. -/
def firstEnd (key : κ) (cell : Nat) (events : List (Event κ ν)) : Option (Event κ ν) :=
  events.reverse.find? fun e => e.ended? = some (key, cell)

/-- There is no first end where no event is an end. -/
lemma firstEnd_eq_none_iff :
    firstEnd key cell events = none ↔ ∀ e ∈ events, e.ended? ≠ some (key, cell) := by
  rw [firstEnd, List.find?_eq_none]
  simp only [List.mem_reverse, decide_eq_true_eq, ne_eq]

/-- The first end is an event, and an end. -/
lemma mem_of_firstEnd (h : firstEnd key cell events = some e) :
    e ∈ events ∧ e.ended? = some (key, cell) := by
  rw [firstEnd] at h
  exact ⟨List.mem_reverse.1 (List.mem_of_find?_eq_some h), by simpa using List.find?_some h⟩

end FirstEnd

namespace Machine

namespace Thread

variable {t t' : Thread κ ν ε} {f : Frame κ ν ε} {m m' : Memo κ ν} {free : Nat → Bool}
  {aside : Bool}

/-- A call that returns leaves the computations around it. -/
@[simp] lemma inside_deliver (t : Thread κ ν ε) (resume : Resume κ ν ε)
    (outcome : Outcome ε (Shared ν)) : (t.deliver resume outcome).inside = t.frames := by
  cases resume <;> rfl

/-- The event with which the next step of a thread ends its innermost computation. -/
def ending? (t : Thread κ ν ε) : Option (Event κ ν) :=
  match t.control, t.frames with
  | .running (.done (.ok v)), f :: _ => some (.produced f.key f.cell v)
  | .running (.done (.error _)), f :: _ => some (.failed f.key f.cell)
  | .unwinding _, f :: _ => some (.aborted f.key f.cell)
  | _, _ => none

/-- Some events tell of the end of a computation exactly where the thread is to end one. -/
def WritesEnding (t : Thread κ ν ε) (new : List (Event κ ν)) : Prop :=
  ∀ e : Event κ ν, e.ended? ≠ none → (e ∈ new ↔ t.ending? = some e)

/-- A step that writes nothing ends nothing. -/
lemma writesEnding_nil (h : t.ending? = none) : WritesEnding t [] := by
  intro e _
  rw [h]
  exact ⟨fun hm => absurd hm List.not_mem_nil, nofun⟩

/-- A step may write an event that is no end, if it ends nothing. -/
lemma writesEnding_singleton {e : Event κ ν} (he : e.ended? = none) (h : t.ending? = none) :
    WritesEnding t [e] := by
  intro e' he'
  rw [h]
  refine ⟨fun hm => ?_, nofun⟩
  obtain rfl := List.mem_singleton.1 hm
  exact absurd he he'

/-- A step that ends a computation writes the end. -/
lemma writesEnding_ending {e : Event κ ν} (h : t.ending? = some e) : WritesEnding t [e] := by
  intro e' _
  rw [h, List.mem_singleton, Option.some_inj, eq_comm]

variable [DecidableEq κ]

/-- Of the events that end a computation, a step writes down the one with which the thread is to end
its innermost one, and no other. -/
lemma Step.journal_eq (h : Step free aside t m t' m') :
    ∃ new, m'.journal = new ++ m.journal ∧ WritesEnding t new := by
  cases h with
  | drop | dropAside | clear => exact ⟨[.clear], rfl, writesEnding_singleton rfl rfl⟩
  | @ask key | @askAside _ _ _ key | @nested _ key =>
    exact ⟨[.lookup key], m.journal_lookup key, writesEnding_singleton rfl rfl⟩
  | enter _ | abort | settle => exact ⟨[], rfl, writesEnding_nil rfl⟩
  | @work _ key parts => exact ⟨[.worked key parts], rfl, writesEnding_singleton rfl rfl⟩
  | @hit _ _ f => exact ⟨[.hit f.key f.cell], rfl, writesEnding_singleton rfl rfl⟩
  | @start _ _ f => exact ⟨[.start f.key f.cell], rfl, writesEnding_singleton rfl rfl⟩
  | @finish _ result f =>
    cases result with
    | ok v => exact ⟨[.produced f.key f.cell v], rfl, writesEnding_ending rfl⟩
    | error e => exact ⟨[.failed f.key f.cell], rfl, writesEnding_ending rfl⟩
  | @fill _ result =>
    cases result with
    | ok v => exact ⟨[], rfl, writesEnding_nil rfl⟩
    | error e => exact ⟨[], rfl, writesEnding_nil rfl⟩
  | @unwind _ _ f => exact ⟨[.aborted f.key f.cell], rfl, writesEnding_ending rfl⟩

/-- A thread stays inside of a computation but for the step that ends it. -/
lemma Step.inside_or_ending (h : Step free aside t m t' m') (hf : f ∈ t.inside) :
    f ∈ t'.inside ∨ ∃ e, t.ending? = some e ∧ e.ended? = some (f.key, f.cell) := by
  cases h with
  | drop | ask | dropAside | askAside | enter _ | abort | clear | work | nested | settle =>
    exact .inl hf
  | hit _ | fill =>
    rw [inside_deliver]
    exact .inl hf
  | start _ => exact .inl (List.mem_cons_of_mem _ hf)
  | @finish _ result =>
    obtain rfl | hf := List.mem_cons.1 hf
    · cases result with
      | ok v => exact .inr ⟨_, rfl, rfl⟩
      | error e => exact .inr ⟨_, rfl, rfl⟩
    · exact .inl hf
  | unwind =>
    rw [inside_deliver]
    obtain rfl | hf := List.mem_cons.1 hf
    · exact .inr ⟨_, rfl, rfl⟩
    · exact .inl hf

end Thread

variable [DecidableEq κ] {s s' : Machine κ ν ε} {t : Thread κ ν ε} {f : Frame κ ν ε} {i : Nat}

/-- Thread `i` is inside of a computation, unless an event has ended it since an earlier state. -/
def InsideSince (s : Machine κ ν ε) (i : Nat) (f : Frame κ ν ε) (s' : Machine κ ν ε) : Prop :=
  ∃ since, s'.memo.journal = since ++ s.memo.journal ∧
    (firstEnd f.key f.cell since = none → ∃ t', s'.threads[i]? = some t' ∧ f ∈ t'.inside)

/-- Each step keeps a thread inside of its computation, unless it ends it. -/
lemma InsideSince.step (h : InsideSince s i f s') {turn : Turn} {s'' : Machine κ ν ε}
    (hs : s'.step? turn = some s'') : InsideSince s i f s'' := by
  obtain ⟨since, hj, inside⟩ := h
  obtain ⟨w, w', m', hw, hstep, rfl⟩ := step?_eq_some hs
  generalize turn.thread = k at hw ⊢
  obtain ⟨new, hnew, ends⟩ := hstep.journal_eq
  refine ⟨new ++ since, by rw [hnew, hj, List.append_assoc], fun unended => ?_⟩
  rw [firstEnd_eq_none_iff, List.forall_mem_append] at unended
  obtain ⟨t', ht', hf'⟩ := inside (firstEnd_eq_none_iff.2 unended.2)
  by_cases hk : k = i
  · subst hk
    obtain rfl := Option.some.inj (hw.symm.trans ht')
    obtain hf' | ⟨e, he, hend⟩ := hstep.inside_or_ending hf'
    · exact ⟨w', getElem?_set_of_some hw w', hf'⟩
    · have written : e ∈ new := (ends e (by rw [hend]; exact Option.some_ne_none _)).2 he
      exact absurd hend (unended.1 e written)
  · exact ⟨t', (List.getElem?_set_ne hk).trans ht', hf'⟩

/-- A thread is inside of a computation until an event ends it. -/
lemma Reaches.insideSince (h : Reaches s s') (ht : s.threads[i]? = some t) (hf : f ∈ t.inside) :
    InsideSince s i f s' :=
  h.keeps (fun _ _ _ h hs => h.step hs) ⟨[], rfl, fun _ => ⟨t, ht, hf⟩⟩

end Machine

end RuleFormula
