import RuleFormula.Memo.Machine
import RuleFormula.Proofs.Memo.Owners

/-!
# The steps of threads

`Step` lists all that a thread may do next, with what it does to the memo, and `run?` lets the
threads take turns in a given order. The lemmas after it say what no step does: no step changes
what is written in the journal, takes a cell from its owner, or fills a cell that the thread does
not hold.
-/

namespace RuleFormula

namespace Machine

variable {κ ν ε : Type}

/-- Whether a call was taken up aside. -/
def Resume.isAside : Resume κ ν ε → Bool
  | .thread | .nested _ => false
  | .aside _ => true

variable [DecidableEq κ]

namespace Thread

/-- What a thread may do next, where `free` tells which cells no thread holds. The steps with `true`
are those by which it takes up a call aside. -/
inductive Step (free : Nat → Bool) :
    Bool → Thread κ ν ε → Memo κ ν → Thread κ ν ε → Memo κ ν → Prop
  | drop {calls frames results m} :
    Step free false ⟨.clear :: calls, .idle, frames, results⟩ m
      ⟨calls, .idle, frames, results⟩ m.clear
  | ask {key body calls frames results m} :
    Step free false ⟨.get key body :: calls, .idle, frames, results⟩ m
      ⟨calls, .queued key (m.lookup key).1 body .thread, frames, results⟩ (m.lookup key).2
  | dropAside {k parts next calls frames results m} :
    Step free true ⟨.clear :: calls, .running (.await k parts next), frames, results⟩ m
      ⟨calls, .running (.await k parts next), frames, results⟩ m.clear
  | askAside {k parts next key body calls frames results m} :
    Step free true ⟨.get key body :: calls, .running (.await k parts next), frames, results⟩ m
      ⟨calls, .queued key (m.lookup key).1 body (.aside (.await k parts next)), frames, results⟩
      (m.lookup key).2
  | enter {calls key cell body resume frames results m} : free cell = true →
    Step free false ⟨calls, .queued key cell body resume, frames, results⟩ m
      ⟨calls, .entered body, ⟨key, cell, resume⟩ :: frames, results⟩ m
  | hit {calls body f frames results m v} : m.value? f.cell = some v →
    Step free false ⟨calls, .entered body, f :: frames, results⟩ m
      (deliver ⟨calls, .entered body, frames, results⟩ f.resume (.returned (.ok ⟨f.cell, v⟩)))
      (m.hit f.key f.cell)
  | start {calls body f frames results m} : m.value? f.cell = none →
    Step free false ⟨calls, .entered body, f :: frames, results⟩ m
      ⟨calls, .running (body ()), f :: frames, results⟩ (m.start f.key f.cell)
  | finish {calls result f frames results m} :
    Step free false ⟨calls, .running (.done result), f :: frames, results⟩ m
      ⟨calls, .ended result, f :: frames, results⟩ (m.finish f.key f.cell result)
  | abort {calls fault frames results m} :
    Step free false ⟨calls, .running (.abort fault), frames, results⟩ m
      ⟨calls, .unwinding fault, frames, results⟩ m
  | clear {calls next frames results m} :
    Step free false ⟨calls, .running (.clear next), frames, results⟩ m
      ⟨calls, .running next, frames, results⟩ m.clear
  | work {calls key parts next frames results m} :
    Step free false ⟨calls, .running (.await key parts next), frames, results⟩ m
      ⟨calls, .running next, frames, results⟩ (m.log (.worked key parts))
  | nested {calls key body next frames results m} :
    Step free false ⟨calls, .running (.get key body next), frames, results⟩ m
      ⟨calls, .queued key (m.lookup key).1 body (.nested next), frames, results⟩ (m.lookup key).2
  | settle {calls result f frames results m} :
    Step free false ⟨calls, .ended result, f :: frames, results⟩ m
      ⟨calls, .settled result, f :: frames, results⟩ (m.settle f.key)
  | fill {calls result f frames results m} :
    Step free false ⟨calls, .settled result, f :: frames, results⟩ m
      (deliver ⟨calls, .settled result, frames, results⟩ f.resume
        (.returned (Memo.share f.cell result)))
      (m.fill f.cell result)
  | unwind {calls fault f frames results m} :
    Step free false ⟨calls, .unwinding fault, f :: frames, results⟩ m
      (deliver ⟨calls, .unwinding fault, frames, results⟩ f.resume (.aborted fault))
      (m.log (.aborted f.key f.cell))

variable {free : Nat → Bool} {aside : Bool} {t t' : Thread κ ν ε} {m m' : Memo κ ν}

/-- The next step of a thread is one of those listed. -/
lemma step_of_step? (h : t.step? free m = some (t', m')) : Step free false t m t' m' := by
  -- by what the thread is at, and where that is not enough by its calls and frames
  obtain ⟨calls, control, frames, results⟩ := t
  unfold step? at h
  cases control with
  | idle =>
    cases calls with
    | nil => cases h
    | cons call calls =>
      cases call with
      | get key body =>
        cases h
        exact .ask
      | clear =>
        cases h
        exact .drop
  | queued key cell body resume =>
    dsimp only at h
    split at h
    · next hfree =>
      cases h
      exact .enter hfree
    · cases h
  | entered body =>
    cases frames with
    | nil => cases h
    | cons f frames =>
      dsimp only at h
      split at h
      · next v hv =>
        cases h
        exact .hit hv
      · next hv =>
        cases h
        exact .start hv
  | running rest =>
    cases rest with
    | done result =>
      cases frames with
      | nil => cases h
      | cons f frames =>
        cases h
        exact .finish
    | abort fault =>
      cases h
      exact .abort
    | clear next =>
      cases h
      exact .clear
    | await key parts next =>
      cases h
      exact .work
    | get key body next =>
      cases h
      exact .nested
  | ended result =>
    cases frames with
    | nil => cases h
    | cons f frames =>
      cases h
      exact .settle
  | settled result =>
    cases frames with
    | nil => cases h
    | cons f frames =>
      cases h
      exact .fill
  | unwinding fault =>
    cases frames with
    | nil => cases h
    | cons f frames =>
      cases h
      exact .unwind

/-- A thread takes up calls aside only while its computation waits. -/
lemma step_of_aside? (h : t.aside? m = some (t', m')) : Step free true t m t' m' := by
  obtain ⟨calls, control, frames, results⟩ := t
  unfold aside? at h
  dsimp only at h
  split at h
  · next k parts next =>
    cases calls with
    | nil => cases h
    | cons call calls =>
      cases call with
      | get key body =>
        cases h
        exact .askAside
      | clear =>
        cases h
        exact .dropAside
  · cases h

/-- What a thread does in a turn is one of the steps listed. -/
lemma step_of_turn? (h : t.turn? free aside m = some (t', m')) : Step free aside t m t' m' := by
  cases aside with
  | false => exact step_of_step? h
  | true => exact step_of_aside? h

/-- A thread takes each of the listed steps when it has a turn of the kind. -/
lemma Step.turn?_eq (h : Step free aside t m t' m') : t.turn? free aside m = some (t', m') := by
  cases h with
  | drop | ask | dropAside | askAside | finish | abort | clear | work | nested | settle | fill
  | unwind => rfl
  | enter hfree => exact if_pos hfree
  | hit hv | start hv =>
    unfold turn? step?
    dsimp only
    rw [hv]

omit [DecidableEq κ] in
/-- The end of a call leaves the calls around it as they are. -/
@[simp] lemma frames_deliver (t : Thread κ ν ε) (resume : Resume κ ν ε)
    (outcome : Outcome ε (Shared ν)) : (t.deliver resume outcome).frames = t.frames := by
  cases resume <;> rfl

/-- A step leaves the calls as they are, goes into one more, for which no thread holds the cell, or
ends the innermost one. -/
lemma Step.frames_cases (h : Step free aside t m t' m') :
    t'.frames = t.frames ∨
    (∃ key cell body resume, t.control = .queued key cell body resume ∧ free cell = true ∧
      t'.frames = ⟨key, cell, resume⟩ :: t.frames) ∨
    ∃ f, t.frames = f :: t'.frames := by
  cases h with
  | drop | ask | dropAside | askAside | start _ | finish | abort | clear | work | nested
  | settle => exact .inl rfl
  | enter hfree => exact .inr (.inl ⟨_, _, _, _, rfl, hfree, rfl⟩)
  | @hit _ _ f | @fill _ _ f | @unwind _ _ f => exact .inr (.inr ⟨f, by rw [frames_deliver]⟩)

/-- A thread holds a cell after a step only if it did before, or if no thread did. -/
lemma Step.held (h : Step free aside t m t' m') {c : Nat} (hc : c ∈ t'.held) :
    c ∈ t.held ∨ free c = true := by
  rw [Thread.held] at hc ⊢
  obtain e | ⟨key, cell, body, resume, _, hfree, e⟩ | ⟨f, e⟩ := h.frames_cases
  · exact .inl (e ▸ hc)
  · rw [e, List.map_cons, List.mem_cons] at hc
    obtain rfl | hc := hc
    · exact .inr hfree
    · exact .inl hc
  · rw [e, List.map_cons]
    exact .inl (List.mem_cons_of_mem _ hc)

/-- What is in the journal stays there. -/
lemma Step.mem_journal (h : Step free aside t m t' m') {e : Event κ ν} (he : e ∈ m.journal) :
    e ∈ m'.journal := by
  have lookup (key : κ) : e ∈ (m.lookup key).2.journal := by
    obtain ⟨_, _, hl⟩ | ⟨_, _, _, hl⟩ | ⟨_, _, hl⟩ := m.lookup_cases key
    all_goals
      rw [hl]
      exact List.mem_cons_of_mem _ he
  cases h with
  | enter _ | abort | settle => exact he
  | ask | askAside | nested => exact lookup _
  | drop | dropAside | clear | work | hit _ | start _ | unwind => exact List.mem_cons_of_mem _ he
  | @finish _ result =>
    cases result with
    | ok v => exact List.mem_cons_of_mem _ he
    | error e => exact List.mem_cons_of_mem _ he
  | @fill _ result =>
    cases result with
    | ok v => exact he
    | error e => exact he

/-- A step leaves a cell as it is, or brings the value there with which its computation ended. -/
lemma Step.value?_cases (h : Step free aside t m t' m') (c : Nat) :
    m'.value? c = m.value? c ∨
      ∃ f frames v, t.control = .settled (.ok v) ∧ t.frames = f :: frames ∧ f.cell = c ∧
        m'.value? c = some v := by
  cases h with
  | drop | dropAside | enter _ | hit _ | start _ | abort | clear | work | settle | unwind =>
    exact .inl rfl
  | ask | askAside | nested => exact .inl (m.value?_lookup _ c)
  | finish => exact .inl (m.value?_finish _ _ _ c)
  | @fill _ result f frames =>
    cases result with
    | error e => exact .inl rfl
    | ok v =>
      rw [m.value?_fill_ok]
      split
      · next hc => exact .inr ⟨f, frames, v, rfl, rfl, hc.1, rfl⟩
      · exact .inl rfl

/-- A step fills no cell that the thread does not hold. -/
lemma Step.value?_eq (h : Step free aside t m t' m') {c : Nat} (hc : c ∉ t.held) :
    m'.value? c = m.value? c := by
  obtain e | ⟨f, frames, _, _, hframes, rfl, _⟩ := h.value?_cases c
  · exact e
  · rw [Thread.held, hframes] at hc
    exact absurd List.mem_cons_self hc

/-- A step takes no cell from its owner, and makes cells for the key that is looked up only. -/
lemma Step.owned (h : Step free aside t m t' m') {owners : List κ} (ho : m.Owned owners) :
    ∃ more, m'.Owned (owners ++ more) ∧
      ∀ key cell body resume, t'.control = .queued key cell body resume →
        (owners ++ more)[cell]? = some key := by
  have same {m' : Memo κ ν} (ho' : m'.Owned owners) (hq : ∀ key cell body resume,
      t'.control ≠ .queued key cell body resume) : ∃ more, m'.Owned (owners ++ more) ∧
      ∀ key cell body resume, t'.control = .queued key cell body resume →
        (owners ++ more)[cell]? = some key :=
    ⟨[], (List.append_nil owners).symm ▸ ho', fun _ _ _ _ e => absurd e (hq _ _ _ _)⟩
  have delivered {t : Thread κ ν ε} (resume : Resume κ ν ε) (outcome : Outcome ε (Shared ν)) :
      ∀ key cell body resume', (t.deliver resume outcome).control ≠ .queued key cell body resume' :=
    by cases resume <;> exact nofun
  cases h with
  | drop | dropAside | clear => exact same ho.clear nofun
  | enter _ | abort => exact same ho nofun
  | @hit _ _ f => exact same (ho.hit f.key f.cell) (delivered _ _)
  | start _ => exact same (ho.start _ _) nofun
  | finish => exact same (ho.finish _ _ _) nofun
  | work => exact same (ho.log _) nofun
  | settle => exact same (ho.settle _) nofun
  | @fill _ result f => exact same (ho.fill f.cell result) (delivered _ _)
  | unwind => exact same (ho.log _) (delivered _ _)
  | @ask key | @askAside _ _ _ key | @nested _ key =>
    obtain ⟨more, ho', hc⟩ := ho.lookup key
    refine ⟨more, ho', ?_⟩
    rintro _ _ _ _ ⟨⟩
    exact hc

end Thread

/-! ## Runs -/

variable {aside : Bool}

/-- The threads take turns in a given order; nothing where one of them cannot. -/
def run? (s : Machine κ ν ε) : List Turn → Option (Machine κ ν ε)
  | [] => some s
  | turn :: schedule => (s.step? turn).bind (·.run? schedule)

/-- A step of the threads is a step of the one whose turn it is. -/
lemma step?_eq_some {s s' : Machine κ ν ε} {turn : Turn} (h : s.step? turn = some s') :
    ∃ t t' m', s.threads[turn.thread]? = some t ∧
      Thread.Step s.free turn.aside t s.memo t' m' ∧ s' = ⟨m', s.threads.set turn.thread t'⟩ := by
  obtain ⟨t, ht, h⟩ := Option.bind_eq_some_iff.1 h
  obtain ⟨⟨t', m'⟩, hturn, h⟩ := Option.bind_eq_some_iff.1 h
  exact ⟨t, t', m', ht, Thread.step_of_turn? hturn, (Option.some.inj h).symm⟩

omit [DecidableEq κ] in
/-- A thread that is put in the place of one is found there. -/
lemma getElem?_set_of_some {i : Nat} {threads : List (Thread κ ν ε)} {t : Thread κ ν ε}
    (h : threads[i]? = some t) (t' : Thread κ ν ε) : (threads.set i t')[i]? = some t' := by
  obtain ⟨hlt, _⟩ := List.getElem?_eq_some_iff.1 h
  exact List.getElem?_set_self hlt

/-- The threads can come from one state to another by taking turns. -/
def Reaches (s s' : Machine κ ν ε) : Prop := ∃ schedule, s.run? schedule = some s'

/-- A schedule may be run in two parts. -/
lemma run?_append (s : Machine κ ν ε) (xs ys : List Turn) :
    s.run? (xs ++ ys) = (s.run? xs).bind (·.run? ys) := by
  induction xs generalizing s with
  | nil => rfl
  | cons i xs ih =>
    rw [List.cons_append, run?, run?, Option.bind_assoc]
    exact congrArg _ (funext ih)

/-- The steps of other threads leave a thread as it is. -/
lemma getElem?_of_run {s s' : Machine κ ν ε} {j : Nat} {xs : List Turn}
    (hr : s.run? xs = some s') (hj : ∀ turn ∈ xs, turn.thread ≠ j) :
    s'.threads[j]? = s.threads[j]? := by
  induction xs generalizing s with
  | nil =>
    obtain rfl := Option.some.inj hr
    rfl
  | cons turn xs ih =>
    obtain ⟨other, hj⟩ := List.forall_mem_cons.1 hj
    obtain ⟨s₁, hs, hr⟩ := Option.bind_eq_some_iff.1 hr
    obtain ⟨_, _, _, _, _, rfl⟩ := step?_eq_some hs
    rw [ih hr hj]
    exact List.getElem?_set_ne other

/-- What is reached from a state that is reached is reached. -/
lemma Reaches.trans {s s' s'' : Machine κ ν ε} (h : Reaches s s') (h' : Reaches s' s'') :
    Reaches s s'' := by
  obtain ⟨xs, hx⟩ := h
  obtain ⟨ys, hy⟩ := h'
  refine ⟨xs ++ ys, ?_⟩
  rw [run?_append, hx]
  exact hy

/-- A thread that may take a step takes it when it has a turn of the kind. -/
lemma step?_of_step {s : Machine κ ν ε} {m : Memo κ ν} {turn : Turn} {t t' : Thread κ ν ε}
    (ht : s.threads[turn.thread]? = some t) (h : Thread.Step s.free turn.aside t s.memo t' m) :
    s.step? turn = some ⟨m, s.threads.set turn.thread t'⟩ := by
  rw [step?, ht, Option.bind_eq_bind, Option.bind_some, h.turn?_eq]
  rfl

/-- A single turn is a run. -/
lemma run?_singleton {s s' : Machine κ ν ε} {turn : Turn} (h : s.step? turn = some s') :
    s.run? [turn] = some s' := by
  rw [run?, h]
  rfl

/-- A step of one thread leads to the state with this thread and the memo changed. -/
lemma reaches_step {s : Machine κ ν ε} {m : Memo κ ν} (i : Nat) {t t' : Thread κ ν ε}
    (ht : s.threads[i]? = some t) (h : Thread.Step s.free aside t s.memo t' m) :
    Reaches s ⟨m, s.threads.set i t'⟩ :=
  ⟨[⟨i, aside⟩], run?_singleton (step?_of_step ht h)⟩

/-- What every step keeps holds in every state that is reached. -/
lemma Reaches.keeps {P : Machine κ ν ε → Prop}
    (hstep : ∀ s turn s', P s → s.step? turn = some s' → P s') {s s' : Machine κ ν ε}
    (h : Reaches s s') (hs : P s) : P s' := by
  obtain ⟨schedule, hrun⟩ := h
  induction schedule generalizing s with
  | nil => exact Option.some.inj hrun ▸ hs
  | cons turn schedule ih =>
    obtain ⟨s₁, h₁, hrun⟩ := Option.bind_eq_some_iff.1 hrun
    exact ih (hstep s turn s₁ hs h₁) hrun

/-- What every step keeps, with some more owners of cells, holds in every state that is reached. -/
lemma Reaches.keeps_owners {P : List κ → Machine κ ν ε → Prop}
    (hstep : ∀ {owners s turn s'}, P owners s → s.step? turn = some s' →
      ∃ more, P (owners ++ more) s')
    {s s' : Machine κ ν ε} (h : Reaches s s') {owners : List κ} (hs : P owners s) :
    ∃ owners', P owners' s' := by
  refine h.keeps (P := fun s => ∃ owners, P owners s) ?_ ⟨owners, hs⟩
  rintro s turn s' ⟨owners, hs⟩ hi
  obtain ⟨more, hs'⟩ := hstep hs hi
  exact ⟨owners ++ more, hs'⟩

omit [DecidableEq κ] in
/-- No thread holds a cell that is free. -/
lemma not_mem_held_of_free {s : Machine κ ν ε} {c : Nat} (h : s.free c = true)
    {t : Thread κ ν ε} (ht : t ∈ s.threads) : c ∉ t.held := by
  intro hc
  have h := List.all_eq_true.1 h t ht
  rw [List.contains_iff_mem.2 hc] at h
  cases h

end Machine

end RuleFormula
