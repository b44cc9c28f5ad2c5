import Mathlib.Order.WellFounded
import RuleFormula.Proofs.Memo.InFlight

/-!
# Computations that go down

A computation goes down when it asks only for keys below the one that it computes, with computations
that go down as well (`Computation.Descends`). So a call is for a key below those of all calls for
the sake of which it is made (`Thread.Descends.below_of_wants?`). These are all calls that the
thread is in, unless it took up a call aside while a computation waited. Where no thread did
(`Direct`), a thread asks for a key only while all the cells that it holds belong to keys above, and
threads that wait for each other's cells never go round in a circle; as long as a thread is not
through with its calls, some thread can take a step (`Descending.not_waits_in_circle`,
`Descending.exists_step`).
-/

namespace RuleFormula

variable {κ ν ε : Type}

/-- A computation of a key asks only for keys below it, with computations that go down as well, and
clears nothing. -/
def Computation.Descends (below : κ → κ → Prop) : Computation κ ν ε → κ → Prop
  | done _, _ | abort _, _ => True
  | clear _, _ => False
  | await _ _ next, key => next.Descends below key
  | get k body next, key => below k key ∧ (body ()).Descends below k ∧
    ∀ outcome, (next outcome).Descends below key

namespace Machine

variable {below : κ → κ → Prop}

/-! ## Threads whose calls go down -/

/-- A call that the thread made stands alone. A call that a computation made is for a key below, and
the computation goes on going down; so does the computation for which a call was taken up aside. -/
def Hangs (below : κ → κ → Prop) (key : κ) : Resume κ ν ε → List (Frame κ ν ε) → Prop
  | .thread, frames => frames = []
  | .nested next, f :: _ => below key f.key ∧ ∀ outcome, (next outcome).Descends below f.key
  | .aside rest, f :: _ => rest.Descends below f.key
  | .nested _, [] | .aside _, [] => False

/-- The calls for the sake of which a call is made: the one whose computation makes it, the one
whose computation made that one, and so on up to a call that was made by no computation. -/
def callers : Resume κ ν ε → List (Frame κ ν ε) → List (Frame κ ν ε)
  | .nested _, f :: frames => f :: callers f.resume frames
  | _, _ => []

/-- Each of the calls that a thread is in hangs on those around it. -/
inductive Chained (below : κ → κ → Prop) : List (Frame κ ν ε) → Prop
  | nil : Chained below []
  | cons {f frames} : Hangs below f.key f.resume frames → Chained below frames →
    Chained below (f :: frames)

/-- What the innermost call has yet to do goes down. -/
def Control.Descends (below : κ → κ → Prop) : Control κ ν ε → List (Frame κ ν ε) → Prop
  | .idle, frames => frames = []
  | .queued key _ body resume, frames =>
    (body ()).Descends below key ∧ Hangs below key resume frames
  | .entered body, f :: _ => (body ()).Descends below f.key
  | .running rest, f :: _ => rest.Descends below f.key
  | .ended _, _ :: _ | .settled _, _ :: _ | .unwinding _, _ :: _ => True
  | _, [] => False

namespace Thread

/-- All that a thread has yet to do goes down. -/
structure Descends (below : κ → κ → Prop) (t : Thread κ ν ε) : Prop where
  calls : ∀ key body, .get key body ∈ t.calls → (body ()).Descends below key
  control : t.control.Descends below t.frames
  frames : Chained below t.frames

/-- No call that the thread is in was taken up aside. -/
structure Direct (t : Thread κ ν ε) : Prop where
  queued : ∀ key cell body resume, t.control = .queued key cell body resume →
    resume.isAside = false
  frames : ∀ f ∈ t.frames, f.resume.isAside = false

/-- The key whose cell the thread is to look up or to take hold of next. -/
def wants? (t : Thread κ ν ε) : Option κ :=
  match t.control, t.calls with
  | .queued key _ _ _, _ | .running (.get key _ _), _ | .idle, .get key _ :: _ => some key
  | _, _ => none

/-- The calls for the sake of which the thread wants a cell. -/
def callers (t : Thread κ ν ε) : List (Frame κ ν ε) :=
  match t.control with
  | .queued _ _ _ resume => Machine.callers resume t.frames
  | .running (.get _ _ next) => Machine.callers (.nested next) t.frames
  | _ => []

/-- The thread has no call left. -/
def IsThrough (t : Thread κ ν ε) : Prop := t.control = .idle ∧ t.calls = []

variable {t t' : Thread κ ν ε} {m m' : Memo κ ν} {free : Nat → Bool} {aside : Bool} {key : κ}
  {frames : List (Frame κ ν ε)} {resume : Resume κ ν ε}

/-- A thread goes down when its calls do. -/
lemma descends_start {calls : List (Call κ ν ε)}
    (h : ∀ key body, .get key body ∈ calls → (body ()).Descends below key) :
    (start calls).Descends below :=
  ⟨h, rfl, .nil⟩

/-- A thread that has not begun took up no call aside. -/
lemma direct_start (calls : List (Call κ ν ε)) : (start calls).Direct :=
  ⟨nofun, List.forall_mem_nil _⟩

/-- A thread goes on going down however a call of it ends. -/
lemma descends_deliver (outcome : Outcome ε (Shared ν))
    (hc : ∀ key body, .get key body ∈ t.calls → (body ()).Descends below key)
    (hf : Chained below t.frames) (hh : Hangs below key resume t.frames) :
    (t.deliver resume outcome).Descends below := by
  obtain ⟨calls, control, frames, results⟩ := t
  cases resume with
  | thread => exact ⟨hc, hh, hf⟩
  | nested next =>
    cases frames with
    | nil => exact hh.elim
    | cons f frames => exact ⟨hc, hh.2 outcome, hf⟩
  | aside rest =>
    cases frames with
    | nil => exact hh.elim
    | cons f frames => exact ⟨hc, hh, hf⟩

/-- The end of a call takes up none aside. -/
lemma direct_deliver (hf : ∀ f ∈ t.frames, f.resume.isAside = false)
    (outcome : Outcome ε (Shared ν)) :
    (t.deliver resume outcome).Direct := by
  cases resume <;> exact ⟨nofun, hf⟩

/-- A call is for a key below those of the calls for the sake of which it is made. -/
lemma below_of_hangs [IsTrans κ below] (hf : Chained below frames)
    (hh : Hangs below key resume frames) :
    ∀ f ∈ Machine.callers resume frames, below key f.key := by
  induction hf generalizing key resume with
  | nil =>
    cases resume with
    | thread => exact List.forall_mem_nil _
    | nested next | aside rest => exact hh.elim
  | @cons f frames hh' _ ih =>
    cases resume with
    | thread | aside rest => exact List.forall_mem_nil _
    | nested next =>
      refine List.forall_mem_cons.2 ⟨hh.1, fun g hg => ?_⟩
      exact IsTrans.trans _ _ _ hh.1 (ih hh' g hg)

/-- Where no call was taken up aside, each call is made for the sake of all those around it. -/
lemma callers_eq (hf : Chained below frames) (hh : Hangs below key resume frames)
    (hr : resume.isAside = false) (direct : ∀ f ∈ frames, f.resume.isAside = false) :
    Machine.callers resume frames = frames := by
  induction hf generalizing key resume with
  | nil =>
    cases resume with
    | thread => rfl
    | nested next | aside rest => exact hh.elim
  | @cons f frames hh' _ ih =>
    obtain ⟨hr', direct⟩ := List.forall_mem_cons.1 direct
    cases resume with
    | thread => cases hh
    | nested next => exact congrArg (f :: ·) (ih hh' hr' direct)
    | aside rest => cases hr

/-- What a thread wants hangs on the calls that it is in. -/
lemma Descends.exists_hangs (h : t.Descends below) (hw : t.wants? = some key) :
    ∃ resume, Hangs below key resume t.frames ∧ t.callers = Machine.callers resume t.frames ∧
      (t.Direct → resume.isAside = false) := by
  obtain ⟨-, hd, -⟩ := h
  obtain ⟨calls, control, frames, results⟩ := t
  unfold wants? at hw
  dsimp only at hd hw ⊢
  split at hw
  · cases hw
    exact ⟨_, hd.2, rfl, fun direct => direct.queued _ _ _ _ rfl⟩
  · next goesOn =>
    cases hw
    cases frames with
    | nil => exact hd.elim
    | cons f frames => exact ⟨.nested goesOn, ⟨hd.1, hd.2.2⟩, rfl, fun _ => rfl⟩
  · obtain rfl : frames = [] := hd
    exact ⟨.thread, rfl, rfl, fun _ => rfl⟩
  · cases hw

/-- A thread asks for keys below those of the calls for the sake of which it does so. -/
lemma Descends.below_of_wants? [IsTrans κ below] (h : t.Descends below)
    (hw : t.wants? = some key) : ∀ f ∈ t.callers, below key f.key := by
  obtain ⟨resume, hangs, e, _⟩ := h.exists_hangs hw
  exact e ▸ below_of_hangs h.frames hangs

/-- A thread that took up no call aside asks for a key for the sake of all calls that it is in. -/
lemma Descends.callers_eq (h : t.Descends below) (hd : t.Direct) (hw : t.wants? = some key) :
    t.callers = t.frames := by
  obtain ⟨resume, hangs, e, direct⟩ := h.exists_hangs hw
  exact e.trans (Thread.callers_eq h.frames hangs (direct hd) hd.frames)

variable [DecidableEq κ]

/-- The steps of a thread keep it going down. -/
lemma Step.descends (h : Step free aside t m t' m') (ht : t.Descends below) :
    t'.Descends below := by
  obtain ⟨hc, hd, hf⟩ := ht
  have later {call : Call κ ν ε} {calls : List (Call κ ν ε)}
      (hc : ∀ key body, .get key body ∈ call :: calls → (body ()).Descends below key) :
      ∀ key body, .get key body ∈ calls → (body ()).Descends below key :=
    fun key body hmem => hc key body (List.mem_cons_of_mem _ hmem)
  cases h with
  | drop | dropAside => exact ⟨later hc, hd, hf⟩
  | ask => exact ⟨later hc, ⟨hc _ _ List.mem_cons_self, hd⟩, hf⟩
  | @askAside _ _ _ _ _ _ frames =>
    cases frames with
    | nil => exact hd.elim
    | cons f frames => exact ⟨later hc, ⟨hc _ _ List.mem_cons_self, hd⟩, hf⟩
  | enter _ => exact ⟨hc, hd.1, .cons hd.2 hf⟩
  | hit _ | fill | unwind =>
    cases hf with
    | cons hh hf => exact descends_deliver _ hc hf hh
  | start _ => exact ⟨hc, hd, hf⟩
  | finish | settle => exact ⟨hc, trivial, hf⟩
  | @abort _ _ frames | @work _ _ _ _ frames =>
    cases frames with
    | nil => exact hd.elim
    | cons f frames => exact ⟨hc, hd, hf⟩
  | @clear _ _ frames =>
    cases frames with
    | nil => exact hd.elim
    | cons f frames => exact hd.elim
  | @nested _ _ _ _ frames =>
    cases frames with
    | nil => exact hd.elim
    | cons f frames => exact ⟨hc, ⟨hd.2.1, hd.1, hd.2.2⟩, hf⟩

/-- A thread takes up calls aside only when it has a turn to do so. -/
lemma Step.direct (h : Step free false t m t' m') (ht : t.Direct) : t'.Direct := by
  obtain ⟨hq, hf⟩ := ht
  cases h with
  | drop => exact ⟨hq, hf⟩
  | ask | nested =>
    refine ⟨?_, hf⟩
    rintro _ _ _ _ ⟨⟩
    rfl
  | enter _ => exact ⟨nofun, List.forall_mem_cons.2 ⟨hq _ _ _ _ rfl, hf⟩⟩
  | hit _ | fill | unwind => exact direct_deliver (List.forall_mem_cons.1 hf).2 _
  | start _ | finish | abort | clear | work | settle => exact ⟨nofun, hf⟩

/-- A thread that goes down can take a step, unless it is through or waits for a cell. -/
lemma Descends.exists_step (h : t.Descends below) (free : Nat → Bool) (m : Memo κ ν) :
    (∃ t' m', Step free false t m t' m') ∨ t.IsThrough ∨
      ∃ key cell body resume, t.control = .queued key cell body resume ∧ free cell = false := by
  obtain ⟨_, hd, _⟩ := h
  obtain ⟨calls, control, frames, results⟩ := t
  cases control with
  | idle =>
    cases calls with
    | nil => exact .inr (.inl ⟨rfl, rfl⟩)
    | cons call calls =>
      cases call with
      | get key body => exact .inl ⟨_, _, .ask⟩
      | clear => exact .inl ⟨_, _, .drop⟩
  | queued key cell body resume =>
    cases hfree : free cell with
    | true => exact .inl ⟨_, _, .enter hfree⟩
    | false => exact .inr (.inr ⟨key, cell, body, resume, rfl, hfree⟩)
  | entered body =>
    cases frames with
    | nil => exact hd.elim
    | cons f frames =>
      cases hv : m.value? f.cell with
      | some v => exact .inl ⟨_, _, .hit hv⟩
      | none => exact .inl ⟨_, _, .start hv⟩
  | running rest =>
    cases rest with
    | done result =>
      cases frames with
      | nil => exact hd.elim
      | cons f frames => exact .inl ⟨_, _, .finish⟩
    | abort fault => exact .inl ⟨_, _, .abort⟩
    | clear next => exact .inl ⟨_, _, .clear⟩
    | await key parts next => exact .inl ⟨_, _, .work⟩
    | get key body next => exact .inl ⟨_, _, .nested⟩
  | ended result =>
    cases frames with
    | nil => exact hd.elim
    | cons f frames => exact .inl ⟨_, _, .settle⟩
  | settled result =>
    cases frames with
    | nil => exact hd.elim
    | cons f frames => exact .inl ⟨_, _, .fill⟩
  | unwinding fault =>
    cases frames with
    | nil => exact hd.elim
    | cons f frames => exact .inl ⟨_, _, .unwind⟩

end Thread

/-! ## Threads that wait for each other -/

variable [DecidableEq κ] {owners : List κ} {s s' : Machine κ ν ε} {i j : Nat} {turn : Turn}

/-- All threads go down. -/
structure Descending (below : κ → κ → Prop) (owners : List κ) (s : Machine κ ν ε) : Prop
    extends Ordered owners s where
  descends : ∀ t ∈ s.threads, t.Descends below

/-- A machine that starts descends when its calls do. -/
lemma descending_start (capacity : Nat) (pos : 0 < capacity) {threads : List (List (Call κ ν ε))}
    (h : ∀ calls ∈ threads, ∀ key body, .get key body ∈ calls → (body ()).Descends below key) :
    Descending below [] (start (.new capacity pos) threads) where
  toOrdered := ordered_start capacity pos threads
  descends t ht := by
    obtain ⟨calls, hcalls, rfl⟩ := List.mem_map.1 ht
    exact Thread.descends_start (h calls hcalls)

/-- The steps of threads keep them going down. -/
lemma Descending.step (h : Descending below owners s) (hs : s.step? turn = some s') :
    ∃ more, Descending below (owners ++ more) s' := by
  obtain ⟨more, ordered⟩ := h.toOrdered.step hs
  obtain ⟨t, t', m', ht, hstep, rfl⟩ := step?_eq_some hs
  refine ⟨more, ordered, fun u hu => ?_⟩
  obtain hu | rfl := List.mem_or_eq_of_mem_set hu
  · exact h.descends u hu
  · exact hstep.descends (h.descends t (List.mem_of_getElem? ht))

/-- Threads go down in every state that they reach if their calls do. -/
lemma exists_descending {capacity : Nat} {pos : 0 < capacity}
    {threads : List (List (Call κ ν ε))}
    (hcalls : ∀ calls ∈ threads, ∀ key body, .get key body ∈ calls →
      (body ()).Descends below key)
    (h : Reaches (start (.new capacity pos) threads) s) : ∃ owners, Descending below owners s :=
  h.keeps_owners (fun h hs => h.step hs) (descending_start capacity pos hcalls)

/-- No thread is in a call that was taken up aside. -/
def Direct (s : Machine κ ν ε) : Prop := ∀ t ∈ s.threads, t.Direct

/-- While its computation waits for others, no thread takes up a call aside. Threads that are workers
of no pool are like this: they stand still until the others are done. -/
def Patient (schedule : List Turn) : Prop := ∀ turn ∈ schedule, turn.aside = false

/-- Patient threads take up no call aside. -/
lemma Direct.run (h : s.Direct) {schedule : List Turn} (hp : Patient schedule)
    (hr : s.run? schedule = some s') : s'.Direct := by
  induction schedule generalizing s with
  | nil => exact Option.some.inj hr ▸ h
  | cons turn schedule ih =>
    obtain ⟨stays, hp⟩ := List.forall_mem_cons.1 hp
    obtain ⟨s₁, hs, hr⟩ := Option.bind_eq_some_iff.1 hr
    obtain ⟨t, t', m', ht, hstep, rfl⟩ := step?_eq_some hs
    refine ih (fun u hu => ?_) hp hr
    obtain hu | rfl := List.mem_or_eq_of_mem_set hu
    · exact h u hu
    · rw [stays] at hstep
      exact hstep.direct (h t (List.mem_of_getElem? ht))

omit [DecidableEq κ] in
/-- Threads that have not begun took up no call aside. -/
lemma direct_start (memo : Memo κ ν) (threads : List (List (Call κ ν ε))) :
    (start memo threads).Direct := by
  intro t ht
  obtain ⟨calls, _, rfl⟩ := List.mem_map.1 ht
  exact Thread.direct_start calls

/-- Thread `i` is at the cell of a key, to take hold of it. -/
def QueuedAt (s : Machine κ ν ε) (i : Nat) (key : κ) (cell : Nat) : Prop :=
  ∃ t body resume, s.threads[i]? = some t ∧ t.control = .queued key cell body resume

/-- Thread `i` waits for a cell that thread `j` holds. -/
def WaitsFor (s : Machine κ ν ε) (i j : Nat) : Prop :=
  ∃ key cell u, s.QueuedAt i key cell ∧ s.threads[j]? = some u ∧ cell ∈ u.held

/-- A thread waits for a cell of the key that it asks for. -/
lemma Descending.key_of_queuedAt (h : Descending below owners s) {key : κ} {cell : Nat}
    (hq : s.QueuedAt i key cell) : owners[cell]? = some key := by
  obtain ⟨t, body, resume, ht, hcontrol⟩ := hq
  exact (h.fits t (List.mem_of_getElem? ht)).awaited key cell body resume hcontrol

omit [DecidableEq κ] in
/-- A thread that goes down and took up no call aside asks for keys below all those whose cells it
holds. -/
lemma Thread.Descends.below_of_direct [IsTrans κ below] {t : Thread κ ν ε} {key : κ}
    (h : t.Descends below) (hd : t.Direct) (hw : t.wants? = some key) :
    ∀ f ∈ t.frames, below key f.key :=
  h.callers_eq hd hw ▸ h.below_of_wants? hw

/-- A thread that is at a cell of a key holds only cells of keys above. -/
lemma Descending.below_of_held [IsTrans κ below] (h : Descending below owners s) (hd : s.Direct)
    {k key : κ} {c cell : Nat} {u : Thread κ ν ε} (hq : s.QueuedAt j k c)
    (hu : s.threads[j]? = some u) (hc : cell ∈ u.held) (hkey : owners[cell]? = some key) :
    below k key := by
  obtain ⟨t, body, resume, ht, hcontrol⟩ := hq
  obtain rfl := Option.some.inj (ht.symm.trans hu)
  have hmem := List.mem_of_getElem? ht
  obtain ⟨f, hf, rfl⟩ := List.mem_map.1 hc
  obtain rfl := Option.some.inj (((h.fits t hmem).owned f hf).symm.trans hkey)
  have wants : t.wants? = some k := by rw [Thread.wants?, hcontrol]
  exact (h.descends t hmem).below_of_direct (hd t hmem) wants f hf

/-- Where threads wait for each other one after the other, the last one wants a key below. -/
lemma Descending.below_of_waits [IsTrans κ below] (h : Descending below owners s) (hd : s.Direct)
    (hw : Relation.TransGen s.WaitsFor i j) {k : κ} {c : Nat} (hq : s.QueuedAt j k c) :
    ∃ key cell, s.QueuedAt i key cell ∧ below k key := by
  induction hw generalizing k c with
  | single hw =>
    obtain ⟨key, cell, u, hi, hu, hc⟩ := hw
    exact ⟨key, cell, hi, h.below_of_held hd hq hu hc (h.key_of_queuedAt hi)⟩
  | tail _ hw ih =>
    obtain ⟨k', c', u, hmid, hu, hc⟩ := hw
    obtain ⟨key, cell, hi, hbelow⟩ := ih hmid
    have step := h.below_of_held hd hq hu hc (h.key_of_queuedAt hmid)
    exact ⟨key, cell, hi, IsTrans.trans _ _ _ step hbelow⟩

/-- Threads do not wait for each other in a circle. -/
theorem Descending.not_waits_in_circle [IsStrictOrder κ below] (h : Descending below owners s)
    (hd : s.Direct) (i : Nat) : ¬ Relation.TransGen s.WaitsFor i i := by
  intro hw
  obtain ⟨_, ⟨key, cell, _, hi, _⟩, _⟩ := Relation.TransGen.head'_iff.1 hw
  obtain ⟨key', cell', hi', hbelow⟩ := h.below_of_waits hd hw hi
  obtain ⟨t, _, _, ht, hcontrol⟩ := hi
  obtain ⟨t', _, _, ht', hcontrol'⟩ := hi'
  obtain rfl := Option.some.inj (ht.symm.trans ht')
  cases hcontrol.symm.trans hcontrol'
  exact irrefl_of below key hbelow

omit [DecidableEq κ] in
/-- A cell that is not free is held by a thread. -/
lemma exists_holder {c : Nat} (h : s.free c = false) : ∃ t ∈ s.threads, c ∈ t.held := by
  obtain ⟨t, ht, hc⟩ := List.all_eq_false.1 h
  rw [Bool.not_eq_true, Bool.not_eq_false'] at hc
  exact ⟨t, ht, List.contains_iff_mem.1 hc⟩

/-- A thread that is through with its calls computes nothing. -/
lemma Descending.frames_eq_nil (h : Descending below owners s) {t : Thread κ ν ε}
    (ht : t ∈ s.threads) (through : t.IsThrough) : t.frames = [] := by
  have hd := (h.descends t ht).control
  rw [through.1] at hd
  exact hd

/-- As long as a thread is not through, some thread can take a step. -/
theorem Descending.exists_step [IsTrans κ below] [IsWellFounded κ below]
    (h : Descending below owners s) (hd : s.Direct) {t : Thread κ ν ε} (ht : t ∈ s.threads)
    (hn : ¬ t.IsThrough) : ∃ (i : Nat) (s' : Machine κ ν ε), s.step? i = some s' := by
  by_contra stuck
  -- all threads that are not through wait for a cell
  have waits {u : Thread κ ν ε} (hu : u ∈ s.threads) (hn : ¬ u.IsThrough) :
      ∃ key cell body resume, u.control = .queued key cell body resume ∧ s.free cell = false := by
    obtain ⟨i, hi⟩ := List.mem_iff_getElem?.1 hu
    obtain ⟨t', m', hstep⟩ | through | waits := (h.descends u hu).exists_step s.free s.memo
    · exact (stuck ⟨i, _, step?_of_step hi hstep⟩).elim
    · exact absurd through hn
    · exact waits
  -- one of the keys they wait for is not above another one
  let waited : Set κ := {key | ∃ u ∈ s.threads, ∃ cell body resume,
    u.control = .queued key cell body resume ∧ s.free cell = false}
  obtain ⟨key₀, cell₀, body₀, resume₀, hcontrol₀, hfree₀⟩ := waits ht hn
  have some_waited : waited.Nonempty := ⟨key₀, t, ht, cell₀, body₀, resume₀, hcontrol₀, hfree₀⟩
  obtain ⟨key, ⟨u, hu, cell, body, resume, hcontrol, hfree⟩, least⟩ :=
    (IsWellFounded.wf : WellFounded below).has_min waited some_waited
  -- the thread that holds its cell waits for a key below
  obtain ⟨w, hw, hheld⟩ := exists_holder hfree
  obtain ⟨f, hf, rfl⟩ := List.mem_map.1 hheld
  have inside : ¬ w.IsThrough := fun through => List.ne_nil_of_mem hf (h.frames_eq_nil hw through)
  obtain ⟨key', cell', body', resume', hcontrol', hfree'⟩ := waits hw inside
  have owned : owners[f.cell]? = some key := (h.fits u hu).awaited key _ body resume hcontrol
  obtain rfl := Option.some.inj (((h.fits w hw).owned f hf).symm.trans owned)
  have wants : w.wants? = some key' := by rw [Thread.wants?, hcontrol']
  have lower : below key' f.key := (h.descends w hw).below_of_direct (hd w hw) wants f hf
  exact least key' ⟨w, hw, cell', body', resume', hcontrol', hfree'⟩ lower

end Machine

end RuleFormula
