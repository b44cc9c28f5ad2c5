import RuleFormula.Proofs.Memo.Delivery

/-!
# Where results come from

`Machine.history` is what happens to the calls of threads that take turns: a call takes hold of its
cell, and either finds a value there or starts its computation, which ends before the call returns.
Every one of these happenings has its reason in what happened before (`Happening.ExplainedBy`): a
call that computes returns what its own computation gave, in a cell in which no other call returned
a value; and a call that finds a value returns what such a call of the same key has returned. The
memo counts as misses the computations that started and as hits the values that were found, and
each call that takes hold of its cell comes to be one of the two (`results_explained`).
-/

namespace RuleFormula

namespace Machine

variable {κ ν ε : Type}

/-! ## What happens to calls -/

/-- What a step does to the innermost call of a thread. -/
inductive Happening (κ ν ε : Type)
  /-- The call takes hold of its cell. -/
  | entered (key : κ) (cell : Nat)
  /-- The call returns the value that is in its cell, and computes nothing. -/
  | found (key : κ) (result : Shared ν)
  /-- The computation of the call starts. -/
  | started (key : κ) (cell : Nat)
  /-- The computation of the call ends with a value or an error. -/
  | computed (key : κ) (cell : Nat) (result : Except ε ν)
  /-- The call whose computation has ended returns. -/
  | returned (key : κ) (result : Except ε (Shared ν))

/-- What happened, and to which threads, the newest first. -/
abbrev Past (κ ν ε : Type) := List (Nat × Happening κ ν ε)

/-- What happened to one thread. -/
def happenedTo (i : Nat) (past : Past κ ν ε) : List (Happening κ ν ε) :=
  past.filterMap fun e => if e.1 = i then some e.2 else none

namespace Happening

/-- A call takes hold of its cell. -/
def isEntered : Happening κ ν ε → Bool
  | entered _ _ => true
  | _ => false

/-- A call finds a value. -/
def isFound : Happening κ ν ε → Bool
  | found _ _ => true
  | _ => false

/-- A computation starts. -/
def isStarted : Happening κ ν ε → Bool
  | started _ _ => true
  | _ => false

/-- The reason that a happening of thread `i` has in the past. A value that is found was computed by
a call of the same key, which returned it as the same object. A computation that ends had started. A
call that computed returns the result of its computation, the last thing that happened to its
thread, and no other call that computed has returned a value as the same object. -/
def ExplainedBy (i : Nat) (past : Past κ ν ε) : Happening κ ν ε → Prop
  | found key result => ∃ j, (j, computed key result.cell (.ok result.value)) ∈ past ∧
    (j, returned key (.ok result)) ∈ past
  | computed key cell _ => (i, started key cell) ∈ past
  | returned key result =>
    (∃ cell outcome, result = Memo.share cell outcome ∧
      (happenedTo i past).head? = some (computed key cell outcome)) ∧
    ∀ r, result = .ok r → ∀ j k r', (j, returned k (.ok r')) ∈ past → r'.cell ≠ r.cell
  | entered _ _ | started _ _ => True

end Happening

/-- Each happening has its reason in the ones before it. -/
def Explained (past : Past κ ν ε) : Prop :=
  ∀ later i h earlier, past = later ++ (i, h) :: earlier → h.ExplainedBy i earlier

namespace Thread

/-- What the next step of a thread does to its innermost call. -/
def happening? (t : Thread κ ν ε) (m : Memo κ ν) : Option (Happening κ ν ε) :=
  match t.control, t.frames with
  | .queued key cell _ _, _ => some (.entered key cell)
  | .entered _, f :: _ =>
    some ((m.value? f.cell).elim (.started f.key f.cell) fun v => .found f.key ⟨f.cell, v⟩)
  | .running (.done result), f :: _ => some (.computed f.key f.cell result)
  | .settled result, f :: _ => some (.returned f.key (Memo.share f.cell result))
  | _, _ => none

/-- The thread holds a cell into which it has not looked. -/
def isLooking (t : Thread κ ν ε) : Bool :=
  match t.control with
  | .entered _ => true
  | _ => false

/-- The result of the innermost computation, which has ended, with its key and its cell. -/
def outcome? (t : Thread κ ν ε) : Option (κ × Nat × Except ε ν) :=
  match t.control, t.frames with
  | .ended result, f :: _ | .settled result, f :: _ => some (f.key, f.cell, result)
  | _, _ => none

end Thread

/-- What happens to the calls while the threads take steps in a given order. -/
def history [DecidableEq κ] (s : Machine κ ν ε) : List Turn → Past κ ν ε
  | [] => []
  | turn :: schedule =>
    match s.threads[turn.thread]?, s.step? turn with
    | some t, some s' => s'.history schedule ++ (t.happening? s.memo).toList.map (turn.thread, ·)
    | _, _ => []

/-- Where nothing has happened nothing is to be explained. -/
lemma explained_nil : Explained ([] : Past κ ν ε) := by
  intro later i h earlier e
  exact absurd e.symm (List.append_ne_nil_of_right_ne_nil later (List.cons_ne_nil _ _))

/-- One more happening needs a reason in the past before it. -/
lemma Explained.cons {past : Past κ ν ε} (hp : Explained past) {i : Nat} {h : Happening κ ν ε}
    (he : h.ExplainedBy i past) : Explained ((i, h) :: past) := by
  intro later j g earlier e
  cases later with
  | nil =>
    cases e
    exact he
  | cons _ later => exact hp later j g earlier (List.cons.inj e).2

/-! ## What a step does -/

namespace Thread

variable {t t' : Thread κ ν ε} {m m' : Memo κ ν} {free : Nat → Bool} {aside : Bool}
  {f : Frame κ ν ε}

/-- A thread whose call returns is not about to look into a cell. -/
@[simp] lemma isLooking_deliver (t : Thread κ ν ε) (resume : Resume κ ν ε)
    (outcome : Outcome ε (Shared ν)) : (t.deliver resume outcome).isLooking = false := by
  cases resume <;> rfl

/-- A thread whose call returns has no computation that ended. -/
@[simp] lemma outcome?_deliver (t : Thread κ ν ε) (resume : Resume κ ν ε)
    (outcome : Outcome ε (Shared ν)) : (t.deliver resume outcome).outcome? = none := by
  cases resume <;> rfl

/-- A call that returns adds its result to those of the thread, or hands it to the computation
around. -/
lemma mem_results_deliver {resume : Resume κ ν ε} {outcome r : Outcome ε (Shared ν)}
    (h : r ∈ (t.deliver resume outcome).results) : r ∈ t.results ∨ r = outcome := by
  cases resume with
  | thread | aside rest => exact (List.mem_append.1 h).imp_right List.mem_singleton.1
  | nested next => exact .inl h

/-- A call that holds its cell looks into it next. -/
lemma happening?_entered {calls : List (Call κ ν ε)} {body : Unit → Computation κ ν ε}
    {frames : List (Frame κ ν ε)} {results : List (Outcome ε (Shared ν))} :
    happening? ⟨calls, .entered body, f :: frames, results⟩ m =
      some ((m.value? f.cell).elim (.started f.key f.cell) fun v => .found f.key ⟨f.cell, v⟩) :=
  rfl

variable [DecidableEq κ]

/-- The memo counts a value that is found and a computation that starts, and nothing else. -/
lemma Step.counts (h : Step free aside t m t' m') :
    m'.hits = m.hits + (t.happening? m).toList.countP (·.isFound) ∧
      m'.misses = m.misses + (t.happening? m).toList.countP (·.isStarted) := by
  cases h with
  | drop | dropAside | enter _ | abort | clear | work | settle | unwind => exact ⟨rfl, rfl⟩
  | ask | askAside | nested => exact m.counts_lookup _
  | hit hv | start hv =>
    rw [happening?_entered, hv]
    exact ⟨rfl, rfl⟩
  | @finish _ result | @fill _ result => cases result <;> exact ⟨rfl, rfl⟩

/-- A call that takes hold of its cell finds a value or starts its computation with the next step of
its thread. -/
lemma Step.looking (h : Step free aside t m t' m') :
    (t.happening? m).toList.countP (·.isEntered) + t.isLooking.toNat =
      (t.happening? m).toList.countP (·.isFound) + (t.happening? m).toList.countP (·.isStarted) +
        t'.isLooking.toNat := by
  cases h with
  | drop | ask | dropAside | askAside | enter _ | finish | abort | clear | work | nested
  | settle => rfl
  | hit hv =>
    rw [happening?_entered, hv, isLooking_deliver]
    rfl
  | start hv =>
    rw [happening?_entered, hv]
    rfl
  | fill | unwind =>
    rw [isLooking_deliver]
    rfl

/-- A computation has begun when it has started. -/
lemma Step.started_of_begun (h : Step free aside t m t' m') (hf : f ∈ t'.begun) :
    f ∈ t.begun ∨ t.happening? m = some (.started f.key f.cell) := by
  cases h with
  | drop | ask | dropAside | askAside | enter _ | finish | abort | clear | work | nested
  | settle => exact .inl hf
  | hit hv =>
    rw [begun_deliver] at hf
    exact .inl hf
  | start hv =>
    obtain rfl | hf := List.mem_cons.1 hf
    · rw [happening?_entered, hv]
      exact .inr rfl
    · exact .inl hf
  | fill | unwind =>
    rw [begun_deliver] at hf
    exact .inl (List.mem_cons_of_mem _ hf)

/-- A result stays with a thread from the end of the computation until the call returns. -/
lemma Step.computed_of_outcome? (h : Step free aside t m t' m') {key : κ} {cell : Nat}
    {result : Except ε ν} (ho : t'.outcome? = some (key, cell, result)) :
    t.happening? m = some (.computed key cell result) ∨
      t.happening? m = none ∧ t.outcome? = some (key, cell, result) := by
  cases h with
  | drop | ask | dropAside | askAside | enter _ | start _ | abort | clear | work
  | nested => cases ho
  | hit _ | fill | unwind =>
    rw [outcome?_deliver] at ho
    cases ho
  | finish =>
    cases ho
    exact .inl rfl
  | settle => exact .inr ⟨rfl, ho⟩

/-- A cell is filled by the call that returns the value. -/
lemma Step.returned_of_value? (h : Step free aside t m t' m') {c : Nat} {v : ν}
    (hv : m'.value? c = some v) : m.value? c = some v ∨
      ∃ f ∈ t.begun, f.cell = c ∧ t.happening? m = some (.returned f.key (.ok ⟨c, v⟩)) := by
  obtain e | ⟨f, frames, w, hcontrol, hframes, rfl, e⟩ := h.value?_cases c
  · exact .inl (e.symm.trans hv)
  · obtain rfl := Option.some.inj (e.symm.trans hv)
    refine .inr ⟨f, ?_, rfl, ?_⟩
    · rw [begun, hcontrol, hframes]
      exact List.mem_cons_self
    · rw [happening?, hcontrol, hframes]
      rfl

/-- A call that returns the value that it computed has filled its cell with it. -/
lemma Step.value?_of_returned (h : Step free aside t m t' m')
    (hlt : ∀ f ∈ t.frames, f.cell < m.cells.length) {key : κ} {r : Shared ν}
    (hg : t.happening? m = some (.returned key (.ok r))) : m'.value? r.cell = some r.value := by
  cases h with
  | drop | ask | dropAside | askAside | enter _ | finish | abort | clear | work | nested | settle
  | unwind => cases hg
  | hit hv | start hv =>
    rw [happening?_entered, hv] at hg
    cases hg
  | @fill _ result f =>
    cases result with
    | error e => cases hg
    | ok v =>
      cases hg
      rw [m.value?_fill_ok, if_pos ⟨rfl, hlt f List.mem_cons_self⟩]

/-- The values that a thread notes as the results of its calls were found or computed. -/
lemma Step.happening?_of_result (h : Step free aside t m t' m') {r : Shared ν}
    (hr : .returned (.ok r) ∈ t'.results) : .returned (.ok r) ∈ t.results ∨
      ∃ key, t.happening? m = some (.found key r) ∨
        t.happening? m = some (.returned key (.ok r)) := by
  cases h with
  | drop | ask | dropAside | askAside | enter _ | start _ | finish | abort | clear | work | nested
  | settle => exact .inl hr
  | hit hv =>
    obtain hr | e := mem_results_deliver hr
    · exact .inl hr
    · cases e
      rw [happening?_entered, hv]
      exact .inr ⟨_, .inl rfl⟩
  | fill =>
    obtain hr | e := mem_results_deliver hr
    · exact .inl hr
    · rw [Outcome.returned.inj e]
      exact .inr ⟨_, .inr rfl⟩
  | unwind =>
    obtain hr | e := mem_results_deliver hr
    · exact .inl hr
    · cases e

end Thread

/-! ## The invariant -/

/-- What happens to a thread comes to its past. -/
lemma happenedTo_append_self (i : Nat) (new : List (Happening κ ν ε)) (past : Past κ ν ε) :
    happenedTo i (new.map (i, ·) ++ past) = new ++ happenedTo i past := by
  rw [happenedTo, happenedTo, List.filterMap_append, List.filterMap_map]
  simp only [Function.comp_def, if_pos, List.filterMap_some]

/-- What happens to one thread does not happen to another one. -/
lemma happenedTo_append_of_ne {i j : Nat} (h : i ≠ j) (new : List (Happening κ ν ε))
    (past : Past κ ν ε) : happenedTo j (new.map (i, ·) ++ past) = happenedTo j past := by
  rw [happenedTo, happenedTo, List.filterMap_append, List.filterMap_map]
  simp [h]

/-- What happened to a thread happened. -/
lemma mem_of_mem_happenedTo {i : Nat} {past : Past κ ν ε} {h : Happening κ ν ε}
    (hm : h ∈ happenedTo i past) : (i, h) ∈ past := by
  obtain ⟨⟨j, g⟩, hg, e⟩ := List.mem_filterMap.1 hm
  split at e
  · next hj =>
    obtain rfl := Option.some.inj e
    exact hj ▸ hg
  · cases e

/-- A value is shared in the cell of the computation that gave it. -/
lemma share_eq_ok {cell : Nat} {result : Except ε ν} {r : Shared ν}
    (h : Memo.share cell result = .ok r) : cell = r.cell ∧ result = .ok r.value := by
  cases result with
  | ok v =>
    cases h
    exact ⟨rfl, rfl⟩
  | error e => cases h

variable [DecidableEq κ] {owners : List κ} {past : Past κ ν ε} {s s' : Machine κ ν ε} {i : Nat}
  {turn : Turn} {t : Thread κ ν ε}

/-- The past explains itself, and what the memo counted and the threads got is what it tells. Each
call that took hold of its cell found a value or started its computation, once, unless it is about
to look into the cell. -/
structure Accounts (past : Past κ ν ε) (s : Machine κ ν ε) : Prop where
  explained : Explained past
  hits_eq : s.memo.hits = past.countP (·.2.isFound)
  misses_eq : s.memo.misses = past.countP (·.2.isStarted)
  entered_eq {i : Nat} {t : Thread κ ν ε} : s.threads[i]? = some t →
    (happenedTo i past).countP (·.isEntered) = (happenedTo i past).countP (·.isFound) +
      (happenedTo i past).countP (·.isStarted) + t.isLooking.toNat
  results {i : Nat} {t : Thread κ ν ε} {r : Shared ν} : s.threads[i]? = some t →
    .returned (.ok r) ∈ t.results →
    ∃ key, (i, .found key r) ∈ past ∨ (i, .returned key (.ok r)) ∈ past

/-- The past accounts for the state, for each computation that goes on, and for each cell that is
filled. -/
structure Accounted (owners : List κ) (past : Past κ ν ε) (s : Machine κ ν ε) : Prop
    extends Ordered owners s, Accounts past s where
  started {i : Nat} {t : Thread κ ν ε} {f : Frame κ ν ε} : s.threads[i]? = some t →
    f ∈ t.begun → (i, .started f.key f.cell) ∈ past
  computed {i : Nat} {t : Thread κ ν ε} {key : κ} {cell : Nat} {result : Except ε ν} :
    s.threads[i]? = some t → t.outcome? = some (key, cell, result) →
    (happenedTo i past).head? = some (.computed key cell result)
  filled {c : Nat} {v : ν} : s.memo.value? c = some v →
    ∃ i key, owners[c]? = some key ∧ (i, .computed key c (.ok v)) ∈ past ∧
      (i, .returned key (.ok ⟨c, v⟩)) ∈ past
  returned {i : Nat} {key : κ} {r : Shared ν} : (i, .returned key (.ok r)) ∈ past →
    s.memo.value? r.cell = some r.value

/-- Before the first step nothing has happened, and nothing is to be accounted for. -/
lemma accounted_start (capacity : Nat) (pos : 0 < capacity)
    (threads : List (List (Call κ ν ε))) :
    Accounted [] [] (start (.new capacity pos) threads) := by
  have fresh {i : Nat} {t : Thread κ ν ε}
      (ht : (start (.new capacity pos) threads).threads[i]? = some t) :
      ∃ calls, t = Thread.start calls := by
    obtain ⟨calls, _, rfl⟩ := List.mem_map.1 (List.mem_of_getElem? ht)
    exact ⟨calls, rfl⟩
  refine ⟨ordered_start capacity pos threads, ⟨explained_nil, rfl, rfl, fun ht => ?_,
    fun ht hr => ?_⟩, fun ht hf => ?_, fun ht ho => ?_, nofun, nofun⟩
  all_goals obtain ⟨calls, rfl⟩ := fresh ht
  · rfl
  · exact absurd hr List.not_mem_nil
  · exact absurd hf List.not_mem_nil
  · cases ho

/-- What a thread does next has its reason in the past. -/
lemma Accounted.explains (h : Accounted owners past s) (ht : s.threads[i]? = some t)
    {g : Happening κ ν ε} (hg : t.happening? s.memo = some g) : g.ExplainedBy i past := by
  have fits := h.fits t (List.mem_of_getElem? ht)
  have started (f : Frame κ ν ε) : f ∈ t.begun → (i, .started f.key f.cell) ∈ past := h.started ht
  have computed (key : κ) (cell : Nat) (result : Except ε ν) :
      t.outcome? = some (key, cell, result) →
      (happenedTo i past).head? = some (.computed key cell result) := h.computed ht
  obtain ⟨calls, control, frames, results⟩ := t
  unfold Thread.happening? at hg
  dsimp only at hg
  split at hg
  · cases hg
    trivial
  · next f frames =>
    cases hg
    cases hv : s.memo.value? f.cell with
    | none => trivial
    | some v =>
      obtain ⟨j, key, howner, made⟩ := h.filled hv
      obtain rfl := Option.some.inj (howner.symm.trans (fits.owned f List.mem_cons_self))
      exact ⟨j, made⟩
  · next result f frames =>
    cases hg
    exact started f List.mem_cons_self
  · next result f frames =>
    cases hg
    refine ⟨⟨f.cell, result, rfl, computed f.key f.cell result rfl⟩, fun r hr j k r' hmem e => ?_⟩
    -- the cell was empty until now
    have empty := fits.empty f List.mem_cons_self
    rw [(share_eq_ok hr).1, ← e, h.returned hmem] at empty
    cases empty
  · cases hg

/-- The steps of threads keep the invariant. -/
lemma Accounted.step (h : Accounted owners past s) (ht : s.threads[turn.thread]? = some t)
    (hs : s.step? turn = some s') : ∃ more, Accounted (owners ++ more)
      ((t.happening? s.memo).toList.map (turn.thread, ·) ++ past) s' := by
  obtain ⟨more, ordered⟩ := h.toOrdered.step hs
  obtain ⟨_, t', m', ht', hstep, rfl⟩ := step?_eq_some hs
  obtain rfl := Option.some.inj (ht.symm.trans ht')
  generalize turn.thread = i at ht ordered ⊢
  have fits := h.fits t (List.mem_of_getElem? ht)
  have old {e : Nat × Happening κ ν ε} (he : e ∈ past) :
      e ∈ (t.happening? s.memo).toList.map (i, ·) ++ past := List.mem_append_right _ he
  have new {g : Happening κ ν ε} (hg : t.happening? s.memo = some g) :
      (i, g) ∈ (t.happening? s.memo).toList.map (i, ·) ++ past := by
    rw [hg]
    exact List.mem_cons_self
  have counted (p : Happening κ ν ε → Bool) :
      ((t.happening? s.memo).toList.map (i, ·) ++ past).countP (fun e => p e.2) =
        past.countP (fun e => p e.2) + (t.happening? s.memo).toList.countP p := by
    rw [List.countP_append, List.countP_map, Nat.add_comm]
    rfl
  refine ⟨more, ordered, ⟨?_, ?_, ?_, fun {j u} hu => ?_, fun {j u r} hu hr => ?_⟩,
    fun {j u f} hu hf => ?_, fun {j u key cell result} hu ho => ?_, fun {c v} hv => ?_,
    fun {j key r} hr => ?_⟩
  · cases hg : t.happening? s.memo with
    | none => exact h.explained
    | some g => exact h.explained.cons (h.explains ht hg)
  · rw [counted Happening.isFound, ← h.hits_eq]
    exact hstep.counts.1
  · rw [counted Happening.isStarted, ← h.misses_eq]
    exact hstep.counts.2
  · obtain ⟨rfl, rfl⟩ | ⟨hij, hu⟩ := getElem?_set_cases hu
    · have before := h.entered_eq ht
      have looking := hstep.looking
      rw [happenedTo_append_self, List.countP_append, List.countP_append, List.countP_append]
      omega
    · rw [happenedTo_append_of_ne hij]
      exact h.entered_eq hu
  · obtain ⟨rfl, rfl⟩ | ⟨_, hu⟩ := getElem?_set_cases hu
    · obtain hr | ⟨key, hg⟩ := hstep.happening?_of_result hr
      · exact (h.results ht hr).imp fun key hr => hr.imp old old
      · exact ⟨key, hg.imp new new⟩
    · exact (h.results hu hr).imp fun key hr => hr.imp old old
  · obtain ⟨rfl, rfl⟩ | ⟨_, hu⟩ := getElem?_set_cases hu
    · obtain hf | hg := hstep.started_of_begun hf
      · exact old (h.started ht hf)
      · exact new hg
    · exact old (h.started hu hf)
  · obtain ⟨rfl, rfl⟩ | ⟨hij, hu⟩ := getElem?_set_cases hu
    · rw [happenedTo_append_self]
      obtain hg | ⟨hg, ho⟩ := hstep.computed_of_outcome? ho
      · rw [hg]
        rfl
      · rw [hg]
        exact h.computed ht ho
    · rw [happenedTo_append_of_ne hij]
      exact h.computed hu ho
  · obtain hv | ⟨f, hf, rfl, hg⟩ := hstep.returned_of_value? hv
    · obtain ⟨j, key, howner, made, given⟩ := h.filled hv
      exact ⟨j, key, Memo.getElem?_append_some howner more, old made, old given⟩
    · have howner := fits.owned f (Thread.mem_frames_of_begun hf)
      obtain ⟨⟨cell, outcome, e, last⟩, _⟩ := h.explains ht hg
      obtain ⟨rfl, rfl⟩ := share_eq_ok e.symm
      have made := mem_of_mem_happenedTo (List.mem_of_head? last)
      exact ⟨i, f.key, Memo.getElem?_append_some howner more, old made, new hg⟩
  · obtain hr | hr := List.mem_append.1 hr
    · obtain ⟨g, hg, e⟩ := List.mem_map.1 hr
      cases e
      have bound : ∀ f ∈ t.frames, f.cell < s.memo.cells.length := fun f hf =>
        h.owned.length_eq ▸ (List.getElem?_eq_some_iff.1 (fits.owned f hf)).1
      exact hstep.value?_of_returned bound (Option.mem_toList.1 hg)
    · exact hstep.value?_of_some fits (h.returned hr)

/-- A whole run keeps the invariant, with what it adds to the past. -/
lemma Accounted.run {schedule : List Turn} (h : Accounted owners past s)
    (hr : s.run? schedule = some s') :
    ∃ more, Accounted (owners ++ more) (s.history schedule ++ past) s' := by
  induction schedule generalizing owners past s with
  | nil =>
    obtain rfl := Option.some.inj hr
    exact ⟨[], (List.append_nil owners).symm ▸ h⟩
  | cons turn schedule ih =>
    obtain ⟨s₁, hs, hr⟩ := Option.bind_eq_some_iff.1 hr
    obtain ⟨t, _, _, ht, _⟩ := step?_eq_some hs
    obtain ⟨more, h₁⟩ := h.step ht hs
    obtain ⟨more', h'⟩ := ih h₁ hr
    refine ⟨more ++ more', ?_⟩
    rw [history, ht, hs, List.append_assoc, ← List.append_assoc owners]
    exact h'

/-- Two threads call for one key, each with a computation of its own. -/
def sameKeyTwice : List (List (Call String Nat String)) :=
  [[.get "k" fun _ => .done (.ok 1)], [.get "k" fun _ => .done (.ok 2)]]

/-- A step is one happening at most. -/
lemma length_history_le (s : Machine κ ν ε) (schedule : List Turn) :
    (s.history schedule).length ≤ schedule.length := by
  induction schedule generalizing s with
  | nil => exact Nat.le_refl 0
  | cons turn schedule ih =>
    rw [history]
    split
    · next t s' _ _ =>
      have one : (t.happening? s.memo).toList.length ≤ 1 := by
        cases t.happening? s.memo <;> simp
      rw [List.length_append, List.length_map]
      exact Nat.add_le_add (ih s') one
    · exact Nat.zero_le _

omit [DecidableEq κ] in
/-- Nothing that happens is counted twice. -/
lemma countP_found_add_started_le (past : Past κ ν ε) :
    past.countP (·.2.isFound) + past.countP (·.2.isStarted) ≤ past.length := by
  rw [past.length_eq_countP_add_countP (·.2.isFound)]
  refine Nat.add_le_add_left (List.countP_mono_left fun e _ started => ?_) _
  obtain ⟨_, happening⟩ := e
  cases happening <;> simp_all [Happening.isFound, Happening.isStarted]

/-- The memo counts no more than one for each step. So counters of a fixed width hold the same
numbers in every run that has fewer steps than the width has numbers. -/
theorem hits_add_misses_le {capacity : Nat} {pos : 0 < capacity}
    {threads : List (List (Call κ ν ε))} {schedule : List Turn}
    (h : (start (.new capacity pos) threads).run? schedule = some s) :
    s.memo.hits + s.memo.misses ≤ schedule.length := by
  obtain ⟨_, accounted⟩ := (accounted_start capacity pos threads).run h
  rw [List.append_nil] at accounted
  rw [accounted.hits_eq, accounted.misses_eq]
  exact Nat.le_trans (countP_found_add_started_le _) (length_history_le _ _)

end Machine

end RuleFormula
