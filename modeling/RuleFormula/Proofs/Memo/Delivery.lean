import RuleFormula.Proofs.Memo.Endings

/-!
# The delivery of values

Between the end of a computation and the moment at which its value is in the cell, the key is taken
out of the pending ones, other threads take steps, and the key may be pushed out or dropped.
`Delivering` is the invariant that nothing gets lost meanwhile: the two tables never lead from a key
to different cells, so that a lookup gives the cell that is pending, and each value that was
produced is in its cell or a thread is about to bring it there.
-/

namespace RuleFormula

variable {κ ν ε : Type}

/-! ## The tables agree -/

namespace Memo

variable [DecidableEq κ] {m m' : Memo κ ν} {key : κ} {cell : Nat}

/-- The tables give no key two cells. -/
def Agree (m : Memo κ ν) : Prop :=
  ∀ key a b, cellOf? m.recent key = some a → cellOf? m.pending key = some b → a = b

/-- Tables agree when they are tables that agree. -/
lemma Agree.of_eq (h : m.Agree) (hr : m'.recent = m.recent) (hp : m'.pending = m.pending) :
    m'.Agree := by
  intro key a b ha hb
  exact h key a b (hr ▸ ha) (hp ▸ hb)

/-- After a clear nothing is used recently, so the tables agree. -/
lemma agree_clear (m : Memo κ ν) : m.clear.Agree := fun _ _ _ ha => nomatch ha

/-- A key that is not pending any more cannot disagree. -/
lemma Agree.settle (h : m.Agree) (key : κ) : (m.settle key).Agree := by
  intro k a b ha hb
  by_cases hk : k = key
  · subst hk
    exact nomatch (cellOf?_without_self m.pending k).symm.trans hb
  · exact h k a b ha ((cellOf?_without_of_ne hk _).symm.trans hb)

/-- A lookup puts the same cell into both tables. -/
lemma Agree.lookup (h : m.Agree) (key : κ) : (m.lookup key).2.Agree := by
  intro k a b ha hb
  by_cases hk : k = key
  · -- the table of recently used keys gets the cell that was found in one of the tables
    subst hk
    obtain rfl := Option.some.inj ((m.cellOf?_recent_lookup k).symm.trans ha)
    obtain ⟨c, hr, e⟩ | ⟨c, _, hp, e⟩ | ⟨_, _, e⟩ := m.lookup_cases k
    · rw [e] at hb ⊢
      exact h k c b hr hb
    · rw [e] at hb ⊢
      exact Option.some.inj (hp.symm.trans hb)
    · rw [e] at hb ⊢
      exact Option.some.inj ((cellOf?_cons_self m.pending k _).symm.trans hb)
  · obtain ⟨c, _, e⟩ | ⟨c, _, _, e⟩ | ⟨_, _, e⟩ := m.lookup_cases key
    · rw [e] at ha hb
      exact h k a b (cellOf?_recent_promote_of_ne hk ha) hb
    · rw [e] at ha hb
      exact h k a b (cellOf?_recent_promote_of_ne hk ha) hb
    · rw [e] at ha hb
      exact h k a b (cellOf?_recent_promote_of_ne hk ha)
        ((cellOf?_cons_of_ne hk m.pending _).symm.trans hb)

/-- A lookup of a pending key gives the cell that is pending. -/
lemma Agree.lookup_of_pending (h : m.Agree) (hp : cellOf? m.pending key = some cell) :
    (m.lookup key).1 = cell := by
  obtain ⟨c, hr, e⟩ | ⟨c, _, hc, e⟩ | ⟨_, hn, _⟩ := m.lookup_cases key
  · rw [e]
    exact h key c cell hr hp
  · rw [e]
    exact Option.some.inj (hc.symm.trans hp)
  · exact nomatch hn.symm.trans hp

end Memo

namespace Machine

/-! ## Values on their way -/

namespace Thread

variable {t t' : Thread κ ν ε} {f : Frame κ ν ε} {m m' : Memo κ ν} {free : Nat → Bool}
  {aside : Bool} {c : Nat}
  {v : ν}

/-- The value that the thread has computed, and the cell that it is about to bring it to. -/
def bringing? (t : Thread κ ν ε) : Option (Nat × ν) :=
  match t.control, t.frames with
  | .ended (.ok v), f :: _ | .settled (.ok v), f :: _ => some (f.cell, v)
  | _, _ => none

/-- A thread that brings a value has a computation that ended with it. -/
lemma bringing?_eq_some (h : t.bringing? = some (c, v)) :
    ∃ f frames, t.frames = f :: frames ∧ f.cell = c ∧
      (t.control = .ended (.ok v) ∨ t.control = .settled (.ok v)) := by
  obtain ⟨calls, control, frames, results⟩ := t
  unfold bringing? at h
  dsimp only at h
  split at h
  · next f frames =>
    cases h
    exact ⟨f, frames, rfl, rfl, .inl rfl⟩
  · next f frames =>
    cases h
    exact ⟨f, frames, rfl, rfl, .inr rfl⟩
  · cases h

/-- A thread holds the cell to which it brings a value. -/
lemma cell_mem_held_of_bringing? (h : t.bringing? = some (c, v)) : c ∈ t.held := by
  obtain ⟨f, frames, e, rfl, _⟩ := bringing?_eq_some h
  exact cell_mem_held (e ▸ List.mem_cons_self)

/-- The thread that holds a cell without having begun to compute it is about to look into it. -/
lemma entered_of_not_begun (hf : f ∈ t.frames) (hb : f ∉ t.begun) :
    ∃ body frames, t.control = .entered body ∧ t.frames = f :: frames := by
  obtain ⟨calls, control, frames, results⟩ := t
  cases control with
  | entered body =>
    obtain _ | ⟨g, frames⟩ := frames
    · exact absurd hf List.not_mem_nil
    · obtain rfl | hf := List.mem_cons.1 hf
      · exact ⟨body, frames, rfl, rfl⟩
      · exact absurd hf hb
  | idle | queued _ _ _ _ | running _ | ended _ | settled _ | unwinding _ => exact absurd hf hb

variable [DecidableEq κ] {owners : List κ}

/-- A value that is in its cell stays there. -/
lemma Step.value?_of_some (h : Step free aside t m t' m') (hf : t.Fits owners m)
    (hv : m.value? c = some v) : m'.value? c = some v := by
  obtain e | ⟨f, frames, w, hcontrol, hframes, rfl, _⟩ := h.value?_cases c
  · exact e.trans hv
  · -- only an empty cell is filled
    have hbegun : f ∈ t.begun := by
      rw [begun, hcontrol, hframes]
      exact List.mem_cons_self
    rw [hf.empty f hbegun] at hv
    cases hv

/-- Each step keeps the tables in agreement. -/
lemma Step.agree (h : Step free aside t m t' m') (ha : m.Agree) : m'.Agree := by
  cases h with
  | enter _ | abort => exact ha
  | hit _ | start _ | work | unwind => exact ha.of_eq rfl rfl
  | drop | dropAside | clear => exact m.agree_clear
  | ask | askAside | nested => exact ha.lookup _
  | settle => exact ha.settle _
  | @finish _ result | @fill _ result =>
    cases result with
    | ok v => exact ha.of_eq rfl rfl
    | error e => exact ha.of_eq rfl rfl

/-- A thread brings the value of its computation to the cell. -/
lemma Step.brings (h : Step free aside t m t' m') (hlt : c < m.cells.length)
    (hb : t.bringing? = some (c, v)) : m'.value? c = some v ∨ t'.bringing? = some (c, v) := by
  cases h with
  | drop | ask | dropAside | askAside | enter _ | hit _ | start _ | finish | abort | clear | work
  | nested | unwind => cases hb
  | @settle _ result f =>
    cases result with
    | error e => cases hb
    | ok w => exact .inr hb
  | @fill _ result f =>
    cases result with
    | error e => cases hb
    | ok w =>
      cases hb
      exact .inl ((m.value?_fill_ok f.cell _ f.cell).trans (if_pos ⟨rfl, hlt⟩))

/-- A thread that has produced a value is about to bring it to the cell. -/
lemma Step.bringing_of_ending (h : Step free aside t m t' m') {key : κ}
    (he : t.ending? = some (.produced key c v)) : t'.bringing? = some (c, v) := by
  cases h with
  | drop | ask | dropAside | askAside | enter _ | hit _ | start _ | abort | clear | work | nested
  | settle | fill | unwind => cases he
  | @finish _ result f =>
    cases result with
    | error e => cases he
    | ok w =>
      cases he
      rfl

end Thread

variable [DecidableEq κ] {owners : List κ} {s s' : Machine κ ν ε} {i j : Nat}

/-- The tables agree, and each value that was produced is in its cell or on its way there. -/
structure Delivering (owners : List κ) (s : Machine κ ν ε) : Prop extends Ordered owners s where
  agree : s.memo.Agree
  produced {key : κ} {c : Nat} {v : ν} : .produced key c v ∈ s.memo.journal →
    s.memo.value? c = some v ∨ ∃ t ∈ s.threads, t.bringing? = some (c, v)

/-- Nothing is brought to a cell before the first step. -/
lemma delivering_start (capacity : Nat) (pos : 0 < capacity)
    (threads : List (List (Call κ ν ε))) :
    Delivering [] (start (.new capacity pos) threads) where
  toOrdered := ordered_start capacity pos threads
  agree _ _ _ ha := nomatch ha
  produced h := absurd h List.not_mem_nil

omit [DecidableEq κ] in
/-- A step of one thread leaves the other threads where they are. -/
lemma mem_set_of_ne {threads : List (Thread κ ν ε)} {t u : Thread κ ν ε} (hu : threads[j]? = some u)
    (h : i ≠ j) : u ∈ threads.set i t :=
  List.mem_of_getElem? ((List.getElem?_set_ne h).trans hu)

/-- The steps of threads keep the invariant. -/
lemma Delivering.step {turn : Turn} (h : Delivering owners s) (hs : s.step? turn = some s') :
    ∃ more, Delivering (owners ++ more) s' := by
  obtain ⟨more, ordered⟩ := h.toOrdered.step hs
  obtain ⟨t, t', m', ht, hstep, rfl⟩ := step?_eq_some hs
  generalize turn.thread = i at ht ordered ⊢
  obtain ⟨hlt, _⟩ := List.getElem?_eq_some_iff.1 ht
  have fits := h.fits t (List.mem_of_getElem? ht)
  refine ⟨more, ordered, hstep.agree h.agree, fun {key c v} he => ?_⟩
  obtain ⟨new, hj, ends⟩ := hstep.journal_eq
  obtain he | he := List.mem_append.1 (hj ▸ he)
  · have ending := (ends (.produced key c v) (Option.some_ne_none _)).1 he
    exact .inr ⟨t', List.mem_set hlt t', hstep.bringing_of_ending ending⟩
  · obtain hv | ⟨u, hu, hb⟩ := h.produced he
    · exact .inl (hstep.value?_of_some fits hv)
    · obtain ⟨j, hj⟩ := List.mem_iff_getElem?.1 hu
      by_cases hij : i = j
      · obtain rfl := Option.some.inj ((hij ▸ ht).symm.trans hj)
        obtain ⟨f, frames, hframes, rfl, _⟩ := Thread.bringing?_eq_some hb
        have howner := fits.owned f (hframes ▸ List.mem_cons_self)
        have bound : f.cell < s.memo.cells.length :=
          h.owned.length_eq ▸ (List.getElem?_eq_some_iff.1 howner).1
        exact (hstep.brings bound hb).imp_right fun hb => ⟨t', List.mem_set hlt t', hb⟩
      · exact .inr ⟨u, mem_set_of_ne hj hij, hb⟩

end Machine

end RuleFormula
