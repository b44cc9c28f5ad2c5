import RuleFormula.Proofs.Memo.Delivery

/-!
# Calls that share a computation

A call of a key that is being computed is given the cell of this computation, and waits for the
thread that holds it. Once a value was produced, nobody takes hold of the cell without finding the
value there. So the call gets this very value with two more steps of its own: it takes hold of the
cell, and it finds the value (`Served`). It computes nothing, unless a fault ends the computation
that it waits for (`Delivering.shares`).
-/

namespace RuleFormula

namespace Machine

variable {κ ν ε : Type} [DecidableEq κ] {owners : List κ} {s s' : Machine κ ν ε} {i j : Nat}

/-! ## A call from its lookup to its answer -/

/-- A call that a thread is about to make, with what is left for later: how the thread goes on with
the result, and the calls after it. -/
structure Asking (κ ν ε : Type) where
  key : κ
  body : Unit → Computation κ ν ε
  resume : Resume κ ν ε
  calls : List (Call κ ν ε)

/-- The call whose key a thread is to look up next: one that it makes, one that its computation
makes, or one that it may take up aside. -/
def Thread.asking? (t : Thread κ ν ε) : Option (Asking κ ν ε) :=
  match t.control, t.calls with
  | .idle, .get key body :: calls => some ⟨key, body, .thread, calls⟩
  | .running (.get key body next), calls => some ⟨key, body, .nested next, calls⟩
  | .running (.await k parts next), .get key body :: calls =>
    some ⟨key, body, .aside (.await k parts next), calls⟩
  | _, _ => none

/-- The turn in which thread `j` looks the key up. -/
def Asking.turn (a : Asking κ ν ε) (j : Nat) : Turn := ⟨j, a.resume.isAside⟩

/-- The thread after its lookup gave it a cell. -/
def Asking.queued (a : Asking κ ν ε) (t : Thread κ ν ε) (cell : Nat) : Thread κ ν ε :=
  ⟨a.calls, .queued a.key cell a.body a.resume, t.frames, t.results⟩

/-- The thread on the way from its lookup to the answer: it waits for the cell, holds it, and goes
on with the value that it found there. -/
def Asking.stage (a : Asking κ ν ε) (t : Thread κ ν ε) (result : Shared ν) : Nat → Thread κ ν ε
  | 0 => a.queued t result.cell
  | 1 => ⟨a.calls, .entered a.body, ⟨a.key, result.cell, a.resume⟩ :: t.frames, t.results⟩
  | _ => { t with calls := a.calls }.deliver a.resume (.returned (.ok result))

/-- How many of the turns are turns of thread `j`. -/
def turnsOf (j : Nat) (schedule : List Turn) : Nat := schedule.countP (·.thread = j)

/-- Thread `j`, which waits for the cell of its call, gets the result with the next two steps that
it takes, whatever the other threads do meanwhile, and nothing keeps it from taking them. -/
def Answers (s : Machine κ ν ε) (j : Nat) (t : Thread κ ν ε) (a : Asking κ ν ε)
    (result : Shared ν) : Prop :=
  ∀ zs s', s.run? zs = some s' → turnsOf j zs ≤ 2 →
    s'.threads[j]? = some (a.stage t result (turnsOf j zs)) ∧
    ∃ ys s'', s'.run? ys = some s'' ∧ turnsOf j zs + turnsOf j ys = 2

/-- Thread `i` is inside of a computation, whose key thread `j` may look up next. Then thread `j`
waits as long as the computation runs; and if this ends with a value, the thread gets this value. -/
def Shares (s : Machine κ ν ε) (i : Nat) (f : Frame κ ν ε) (j : Nat) (t : Thread κ ν ε)
    (a : Asking κ ν ε) : Prop :=
  (∃ s', s.step? (a.turn j) = some s') ∧
  ∀ xs s', (∀ turn ∈ xs, turn.thread ≠ j) → s.run? (a.turn j :: xs) = some s' →
    ∃ since, s'.memo.journal = since ++ s.memo.journal ∧
      (firstEnd f.key f.cell since = none ∧
          (∀ turn : Turn, turn.thread = j → s'.step? turn = none) ∧
          (∃ t', s'.threads[i]? = some t' ∧ f ∈ t'.inside) ∨
        firstEnd f.key f.cell since = some (.aborted f.key f.cell) ∨
        ∃ v, firstEnd f.key f.cell since = some (.produced f.key f.cell v) ∧
          s'.Answers j t a ⟨f.cell, v⟩)

variable {a : Asking κ ν ε} {t t' u : Thread κ ν ε} {f : Frame κ ν ε} {frames : List (Frame κ ν ε)}
  {result : Shared ν} {m m' : Memo κ ν} {free : Nat → Bool} {aside : Bool} {n k : Nat} {turn : Turn}

omit [DecidableEq κ] in
/-- The turns of a list are those of its head and of its tail. -/
lemma turnsOf_cons (j : Nat) (turn : Turn) (schedule : List Turn) :
    turnsOf j (turn :: schedule) = turnsOf j schedule + if turn.thread = j then 1 else 0 := by
  simp only [turnsOf, List.countP_cons, decide_eq_true_eq]

/-- A thread that may look a key up does so in its turn. -/
lemma Thread.turn?_of_asking? (ha : t.asking? = some a) (free : Nat → Bool) (m : Memo κ ν) :
    t.turn? free a.resume.isAside m =
      some (a.queued t (m.lookup a.key).1, (m.lookup a.key).2) := by
  obtain ⟨calls, control, frames, results⟩ := t
  unfold asking? at ha
  dsimp only at ha
  split at ha
  all_goals cases ha
  all_goals rfl

/-- A thread leaves the queue for a cell only when no thread holds the cell. -/
lemma Thread.Step.free_of_queued {c : Nat} (h : Step free aside (a.queued t c) m t' m') :
    free c = true := by
  obtain ⟨key, body, resume, calls⟩ := a
  cases h with
  | enter hfree => exact hfree

/-- A thread takes one step after the other to the answer of its call. -/
lemma Thread.Step.eq_stage (h : Step free aside (a.stage t result n) m t' m') (hn : n < 2)
    (hv : n = 1 → m.value? result.cell = some result.value) : t' = a.stage t result (n + 1) := by
  obtain ⟨key, body, resume, calls⟩ := a
  match n with
  | 0 =>
    cases h with
    | enter _ => rfl
  | 1 =>
    have hv := hv rfl
    cases h with
    | hit hv' =>
      obtain rfl := Option.some.inj (hv.symm.trans hv')
      cases resume <;> rfl
    | start hn => exact nomatch hn.symm.trans hv

/-- The innermost call of a thread is over but for steps that nothing holds up: its computation has
ended, or is not needed as the cell is filled. -/
def Control.Leaves (filled : Prop) : Control κ ν ε → Prop
  | .entered _ => filled
  | .ended _ | .settled _ => True
  | _ => False

/-- A cell is free when the thread that held it has let go of it. -/
lemma Ordered.free_set (h : Ordered owners s) (hk : s.threads[k]? = some t)
    (hf : t.frames = f :: frames) (hf' : t'.frames = frames) (m : Memo κ ν) :
    (⟨m, s.threads.set k t'⟩ : Machine κ ν ε).free f.cell = true := by
  have nodup := (h.fits t (List.mem_of_getElem? hk)).nodup
  rw [Thread.held, hf, List.map_cons] at nodup
  refine List.all_eq_true.2 fun u hu => ?_
  have apart : f.cell ∉ u.held := by
    obtain ⟨l, hl⟩ := List.mem_iff_getElem?.1 hu
    obtain ⟨_, rfl⟩ | ⟨hkl, hl⟩ := getElem?_set_cases hl
    · rw [Thread.held, hf']
      exact (List.nodup_cons.1 nodup).1
    · exact h.apart hk hl hkl f.cell (Thread.cell_mem_held (hf ▸ List.mem_cons_self))
  rw [Bool.not_eq_true', ← Bool.not_eq_true, List.contains_iff_mem]
  exact apart

/-- A thread whose innermost call is over lets go of the cell. -/
lemma Ordered.exists_free (h : Ordered owners s) (hk : s.threads[k]? = some t)
    (hf : t.frames = f :: frames) {v : ν} (hl : t.control.Leaves (s.memo.value? f.cell = some v)) :
    ∃ ys s', s.run? ys = some s' ∧ (∀ turn ∈ ys, turn.thread = k) ∧ s'.free f.cell = true := by
  obtain ⟨calls, control, _, results⟩ := t
  obtain rfl : _ = f :: frames := hf
  have once {owners : List κ} {s : Machine κ ν ε} (h : Ordered owners s)
      {t t' : Thread κ ν ε} {m : Memo κ ν} (hk : s.threads[k]? = some t)
      (hf : t.frames = f :: frames) (hstep : Thread.Step s.free false t s.memo t' m)
      (hf' : t'.frames = frames) :
      ∃ ys s', s.run? ys = some s' ∧ (∀ turn ∈ ys, turn.thread = k) ∧ s'.free f.cell = true :=
    ⟨[(k : Turn)], _, run?_singleton (step?_of_step hk hstep), List.forall_mem_singleton.2 rfl,
      h.free_set hk hf hf' m⟩
  cases control with
  | entered body => exact once h hk rfl (.hit hl) (Thread.frames_deliver _ _ _)
  | settled result => exact once h hk rfl .fill (Thread.frames_deliver _ _ _)
  | ended result =>
    -- the key is taken out of the pending ones first
    have hstep : Thread.Step s.free false ⟨calls, .ended result, f :: frames, results⟩ s.memo _ _ :=
      .settle
    have hs : s.step? (k : Turn) = _ := step?_of_step hk hstep
    obtain ⟨more, h'⟩ := h.step hs
    obtain ⟨ys, s', hrun, hys, hfree⟩ :=
      once h' (getElem?_set_of_some hk _) rfl .fill (Thread.frames_deliver _ _ _)
    refine ⟨(k : Turn) :: ys, s', ?_, List.forall_mem_cons.2 ⟨rfl, hys⟩, hfree⟩
    rw [run?, hs]
    exact hrun
  | idle | queued _ _ _ _ | running _ | unwinding _ => exact hl.elim

/-- Whoever holds a cell to which a value was produced is about to let go of it. -/
lemma Delivering.leaves_of_held (h : Delivering owners s) {key : κ} {c : Nat} {v : ν}
    (hp : .produced key c v ∈ s.memo.journal) (hk : s.threads[k]? = some t) (hc : c ∈ t.held) :
    ∃ f frames, t.frames = f :: frames ∧ f.cell = c ∧
      t.control.Leaves (s.memo.value? f.cell = some v) := by
  obtain hv | ⟨u, hu, hb⟩ := h.produced hp
  · obtain ⟨f, hf, rfl⟩ := List.mem_map.1 hc
    have notBegun : f ∉ t.begun := by
      intro hb
      rw [(h.fits t (List.mem_of_getElem? hk)).empty f hb] at hv
      cases hv
    obtain ⟨body, frames, hcontrol, hframes⟩ := Thread.entered_of_not_begun hf notBegun
    exact ⟨f, frames, hframes, rfl, hcontrol ▸ hv⟩
  · obtain ⟨l, hl⟩ := List.mem_iff_getElem?.1 hu
    by_cases hkl : k = l
    · subst hkl
      obtain rfl := Option.some.inj (hk.symm.trans hl)
      obtain ⟨f, frames, hframes, hcell, hcontrol⟩ := Thread.bringing?_eq_some hb
      refine ⟨f, frames, hframes, hcell, ?_⟩
      obtain e | e := hcontrol
      · exact e ▸ trivial
      · exact e ▸ trivial
    · exact absurd (Thread.cell_mem_held_of_bringing? hb) (h.apart hk hl hkl c hc)

/-- A thread has taken `n` steps towards the answer of its call, and the value that it is to get was
produced. -/
structure Served (j : Nat) (t : Thread κ ν ε) (a : Asking κ ν ε) (result : Shared ν) (n : Nat)
    (s : Machine κ ν ε) : Prop where
  delivering : ∃ owners, Delivering owners s
  produced : ∃ key, .produced key result.cell result.value ∈ s.memo.journal
  stage : s.threads[j]? = some (a.stage t result n)

/-- A thread that has taken hold of the cell finds the value there. -/
lemma Served.value?_eq (h : Served j t a result 1 s) :
    s.memo.value? result.cell = some result.value := by
  obtain ⟨owners, hd⟩ := h.delivering
  obtain ⟨key, hp⟩ := h.produced
  obtain ⟨f, frames, _, hcell, filled⟩ := hd.leaves_of_held hp h.stage List.mem_cons_self
  rw [← hcell]
  exact filled

/-- Each step of the thread brings it closer to the answer, and those of other threads leave it
where it is. -/
lemma Served.step (h : Served j t a result n s) (hs : s.step? turn = some s')
    (hn : (n + if turn.thread = j then 1 else 0) ≤ 2) :
    Served j t a result (n + if turn.thread = j then 1 else 0) s' := by
  obtain ⟨owners, hd⟩ := h.delivering
  obtain ⟨key, hp⟩ := h.produced
  obtain ⟨more, hd'⟩ := hd.step hs
  obtain ⟨u, u', m', hu, hstep, rfl⟩ := step?_eq_some hs
  refine ⟨⟨_, hd'⟩, ⟨key, hstep.mem_journal hp⟩, ?_⟩
  by_cases hk : turn.thread = j
  · rw [if_pos hk] at hn ⊢
    rw [hk] at hu ⊢
    obtain rfl := Option.some.inj (hu.symm.trans h.stage)
    rw [← hstep.eq_stage hn (fun e => (e ▸ h).value?_eq)]
    exact getElem?_set_of_some hu _
  · rw [if_neg hk]
    exact (List.getElem?_set_ne hk).trans h.stage

/-- A run brings the thread as many steps closer as it has turns. -/
lemma Served.run {zs : List Turn} (h : Served j t a result n s) (hr : s.run? zs = some s')
    (hn : n + turnsOf j zs ≤ 2) : Served j t a result (n + turnsOf j zs) s' := by
  induction zs generalizing s n with
  | nil =>
    obtain rfl := Option.some.inj hr
    exact h
  | cons turn zs ih =>
    obtain ⟨s₁, hs, hr⟩ := Option.bind_eq_some_iff.1 hr
    rw [turnsOf_cons, Nat.add_comm (turnsOf j zs), ← Nat.add_assoc] at hn ⊢
    exact ih (h.step hs (Nat.le_of_add_right_le hn)) hr hn

/-- No thread holds the cell for good while the thread waits for it. -/
lemma Served.exists_free (h : Served j t a result 0 s) :
    ∃ ys s', s.run? ys = some s' ∧ turnsOf j ys = 0 ∧ s'.free result.cell = true := by
  obtain ⟨owners, hd⟩ := h.delivering
  obtain ⟨key, hp⟩ := h.produced
  by_cases hfree : s.free result.cell = true
  · exact ⟨[], s, rfl, rfl, hfree⟩
  · obtain ⟨u, hu, hc⟩ : ∃ u ∈ s.threads, result.cell ∈ u.held := by
      simpa [Machine.free] using hfree
    obtain ⟨k, hk⟩ := List.mem_iff_getElem?.1 hu
    obtain ⟨g, frames, hframes, hcell, hl⟩ := hd.leaves_of_held hp hk hc
    rw [← hcell]
    obtain ⟨ys, s', hrun, hys, hfree⟩ := hd.exists_free hk hframes hl
    refine ⟨ys, s', hrun, List.countP_eq_zero.2 fun turn hturn hj => ?_, hfree⟩
    -- a thread that waits for a cell is not about to leave one
    obtain rfl := (hys turn hturn).symm.trans (of_decide_eq_true hj)
    obtain rfl := Option.some.inj (hk.symm.trans h.stage)
    exact hl

/-- The thread can always be brought to its answer. -/
lemma Served.finishes (h : Served j t a result n s) (hn : n ≤ 2) :
    ∃ ys s', s.run? ys = some s' ∧ n + turnsOf j ys = 2 := by
  have one : turnsOf j [(j : Turn)] = 1 := by
    rw [turnsOf_cons, if_pos rfl, turnsOf, List.countP_nil]
  have last {s : Machine κ ν ε} (h : Served j t a result 1 s) :
      ∃ s', s.run? [(j : Turn)] = some s' :=
    ⟨_, run?_singleton (step?_of_step h.stage (.hit h.value?_eq))⟩
  match n with
  | 0 =>
    obtain ⟨ys, s₁, hrun, none, hfree⟩ := h.exists_free
    have h₁ : Served j t a result 0 s₁ := by
      have h₁ := h.run hrun (by rw [none]; exact hn)
      rwa [none] at h₁
    have hs₂ : s₁.run? [(j : Turn)] = _ := run?_singleton (step?_of_step h₁.stage (.enter hfree))
    have h₂ := h₁.run hs₂ (by rw [one]; omega)
    rw [one, Nat.zero_add] at h₂
    obtain ⟨s₃, hs₃⟩ := last h₂
    refine ⟨ys ++ ([(j : Turn)] ++ [(j : Turn)]), s₃, ?_, ?_⟩
    · rw [run?_append, hrun, Option.bind_some, run?_append, hs₂]
      exact hs₃
    · rw [turnsOf] at none one
      rw [turnsOf, List.countP_append, List.countP_append, none, one]
  | 1 =>
    obtain ⟨s', hs⟩ := last h
    exact ⟨[(j : Turn)], s', hs, by rw [one]⟩
  | 2 => exact ⟨[], s, rfl, rfl⟩

/-- A thread that waits while its value is produced is given the value. -/
lemma Served.answers (h : Served j t a result 0 s) : s.Answers j t a result := by
  intro zs s' hrun hn
  have h' := h.run hrun (by rw [Nat.zero_add]; exact hn)
  rw [Nat.zero_add] at h'
  exact ⟨h'.stage, h'.finishes hn⟩

/-- A call of a key that is being computed waits for the computation and gets its value, as long as
no computation of the key ends with an error. -/
theorem Delivering.shares (h : Delivering owners s)
    (hfail : ∀ s', Reaches s s' → ∀ cell, .failed f.key cell ∉ s'.memo.journal)
    (hi : s.threads[i]? = some t) (hf : f ∈ t.inside) (hj : s.threads[j]? = some u)
    (ha : u.asking? = some a) (hk : a.key = f.key) : s.Shares i f j u a := by
  have asks := Thread.turn?_of_asking? ha s.free s.memo
  refine ⟨⟨_, step?_of_step hj (Thread.step_of_turn? asks)⟩, fun xs s' hxs hrun => ?_⟩
  have reaches : Reaches s s' := ⟨_, hrun⟩
  obtain ⟨s₁, hs₁, hrun₁⟩ := Option.bind_eq_some_iff.1 hrun
  -- thread `j` waits for the cell of the computation
  have queued : s'.threads[j]? = some (a.queued u f.cell) := by
    have pending := h.cellOf?_pending (hfail s ⟨[], rfl⟩) hi hf rfl
    rw [← h.agree.lookup_of_pending pending, ← hk, getElem?_of_run hrun₁ hxs,
      Option.some.inj (hs₁.symm.trans (step?_of_step hj (Thread.step_of_turn? asks)))]
    exact getElem?_set_of_some hj _
  obtain ⟨since, hjournal, inside⟩ := reaches.insideSince hi hf
  refine ⟨since, hjournal, ?_⟩
  cases hend : firstEnd f.key f.cell since with
  | none =>
    obtain ⟨t', ht', hf'⟩ := inside hend
    refine .inl ⟨rfl, fun turn hturn => ?_, t', ht', hf'⟩
    cases hstep : s'.step? turn with
    | none => rfl
    | some s'' =>
      obtain ⟨_, _, _, hq, hstep, rfl⟩ := step?_eq_some hstep
      rw [hturn] at hq
      obtain rfl := Option.some.inj (queued.symm.trans hq)
      have held := Thread.cell_mem_held
        (Thread.mem_frames_of_begun (Thread.mem_begun_of_inside hf'))
      exact absurd held (not_mem_held_of_free hstep.free_of_queued (List.mem_of_getElem? ht'))
  | some e =>
    obtain ⟨hmem, hended⟩ := mem_of_firstEnd hend
    have written : e ∈ s'.memo.journal := hjournal ▸ List.mem_append_left _ hmem
    cases e with
    | lookup _ | clear | hit _ _ | start _ _ | worked _ _ => cases hended
    | aborted _ _ =>
      cases hended
      exact .inr (.inl rfl)
    | failed _ _ =>
      cases hended
      exact absurd written (hfail s' reaches _)
    | produced _ _ v =>
      cases hended
      have served : Served j u a ⟨f.cell, v⟩ 0 s' :=
        ⟨reaches.keeps_owners Delivering.step h, ⟨f.key, written⟩, queued⟩
      exact .inr (.inr ⟨v, rfl, served.answers⟩)

end Machine

end RuleFormula
