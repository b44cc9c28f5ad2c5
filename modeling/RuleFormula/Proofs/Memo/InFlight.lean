import RuleFormula.Proofs.Memo.Steps

/-!
# Computations in flight

When may two threads compute the same key at one time? Two calls never hold one cell, so they would
need two empty cells of the key. `Ordered` is the invariant that rules this out: as long as no
computation of a key has ended with an error, an empty cell of it is the one that is pending, or a
thread is about to fill it with a value. So at most one thread computes the key
(`Ordered.atMostOneComputing`), whatever is pushed out or dropped, and however other computations
end.
-/

namespace RuleFormula

namespace Machine

variable {κ ν ε : Type}

namespace Thread

/-- The calls whose computation has begun. -/
def begun (t : Thread κ ν ε) : List (Frame κ ν ε) :=
  match t.control with
  | .entered _ => t.frames.tail
  | _ => t.frames

/-- The calls whose computation has begun and has not ended. -/
def inside (t : Thread κ ν ε) : List (Frame κ ν ε) :=
  match t.control with
  | .entered _ | .ended _ | .settled _ => t.frames.tail
  | _ => t.frames

/-- The cell that the thread is about to fill. -/
def filling? (t : Thread κ ν ε) : Option Nat :=
  match t.control, t.frames with
  | .settled (.ok _), f :: _ => some f.cell
  | _, _ => none

/-- The key whose computation has ended with an error, while the thread still holds its cell. -/
def failed? (t : Thread κ ν ε) : Option κ :=
  match t.control, t.frames with
  | .ended (.error _), f :: _ => some f.key
  | .settled (.error _), f :: _ => some f.key
  | _, _ => none

variable {t t' : Thread κ ν ε} {f : Frame κ ν ε} {c : Nat}

/-- A computation that has begun has its frame. -/
lemma mem_frames_of_begun (h : f ∈ t.begun) : f ∈ t.frames := by
  unfold begun at h
  split at h
  · exact List.mem_of_mem_tail h
  · exact h

/-- A computation that is inside its body has begun. -/
lemma mem_begun_of_inside (h : f ∈ t.inside) : f ∈ t.begun := by
  obtain ⟨calls, control, frames, results⟩ := t
  cases control with
  | entered _ | idle | queued _ _ _ _ | running _ | unwinding _ => exact h
  | ended _ | settled _ => exact List.mem_of_mem_tail h

/-- A thread holds the cells of its frames. -/
lemma cell_mem_held (h : f ∈ t.frames) : f.cell ∈ t.held := List.mem_map_of_mem h

/-- A thread that is about to fill a cell has its computation on top. -/
lemma filling?_eq_some (h : t.filling? = some c) :
    ∃ f frames, t.frames = f :: frames ∧ f.cell = c ∧ t.inside = frames := by
  obtain ⟨calls, control, frames, results⟩ := t
  unfold filling? at h
  dsimp only at h
  split at h
  · next f frames => exact ⟨f, frames, rfl, Option.some.inj h, rfl⟩
  · cases h

/-- Once a call returns, what has begun are the computations around it. -/
@[simp] lemma begun_deliver (t : Thread κ ν ε) (resume : Resume κ ν ε)
    (outcome : Outcome ε (Shared ν)) : (t.deliver resume outcome).begun = t.frames := by
  cases resume <;> rfl

/-- A call that returns is not about to fail. -/
@[simp] lemma failed?_deliver (t : Thread κ ν ε) (resume : Resume κ ν ε)
    (outcome : Outcome ε (Shared ν)) : (t.deliver resume outcome).failed? = none := by
  cases resume <;> rfl

/-! ## The cells of one thread -/

/-- A thread fits a memo: its cells belong to the keys of its calls and are all different, those
whose computation has begun are empty, and errors are written down. -/
structure Fits (owners : List κ) (m : Memo κ ν) (t : Thread κ ν ε) : Prop where
  owned : ∀ f ∈ t.frames, owners[f.cell]? = some f.key
  awaited : ∀ key cell body resume, t.control = .queued key cell body resume →
    owners[cell]? = some key
  nodup : t.held.Nodup
  empty : ∀ f ∈ t.begun, m.value? f.cell = none
  failed : ∀ key, t.failed? = some key → ∃ cell, .failed key cell ∈ m.journal

/-- A thread that has not begun fits any memo. -/
lemma fits_start (owners : List κ) (m : Memo κ ν) (calls : List (Call κ ν ε)) :
    (Thread.start calls).Fits owners m where
  owned _ hf := absurd hf List.not_mem_nil
  awaited := nofun
  nodup := List.nodup_nil
  empty _ hf := absurd hf List.not_mem_nil
  failed := nofun

/-- A thread goes on fitting while the values in its cells do not change. -/
lemma Fits.mono {owners : List κ} {m m' : Memo κ ν} (h : t.Fits owners m) (more : List κ)
    (hv : ∀ c ∈ t.held, m'.value? c = m.value? c) (hj : ∀ e ∈ m.journal, e ∈ m'.journal) :
    t.Fits (owners ++ more) m' where
  owned f hf := Memo.getElem?_append_some (h.owned f hf) more
  awaited key cell body resume e :=
    Memo.getElem?_append_some (h.awaited key cell body resume e) more
  nodup := h.nodup
  empty f hf := (hv _ (cell_mem_held (mem_frames_of_begun hf))).trans (h.empty f hf)
  failed key hk := (h.failed key hk).imp fun _ he => hj _ he

variable [DecidableEq κ] {free : Nat → Bool} {aside : Bool} {owners : List κ} {m m' : Memo κ ν}

/-- Each frame has a cell that belongs to its key. -/
lemma Step.frames_owned (h : Step free aside t m t' m') (hf : t.Fits owners m) :
    ∀ f ∈ t'.frames, owners[f.cell]? = some f.key := by
  intro g hg
  obtain e | ⟨key, cell, body, resume, hq, _, e⟩ | ⟨f, e⟩ := h.frames_cases
  · exact hf.owned g (e ▸ hg)
  · rw [e, List.mem_cons] at hg
    obtain rfl | hg := hg
    · exact hf.awaited key cell body resume hq
    · exact hf.owned g hg
  · exact hf.owned g (e ▸ List.mem_cons_of_mem f hg)

/-- A thread holds no cell twice: it takes only what is free. -/
lemma Step.held_nodup (h : Step free aside t m t' m') (hf : t.held.Nodup)
    (hfree : ∀ c, free c = true → c ∉ t.held) : t'.held.Nodup := by
  rw [Thread.held] at hf hfree ⊢
  obtain e | ⟨key, cell, body, resume, _, hc, e⟩ | ⟨f, e⟩ := h.frames_cases
  · rw [e]
    exact hf
  · rw [e, List.map_cons]
    exact List.nodup_cons.2 ⟨hfree cell hc, hf⟩
  · rw [e, List.map_cons] at hf
    exact (List.nodup_cons.1 hf).2

/-- A cell is filled only after its computation. -/
lemma Step.begun_empty (h : Step free aside t m t' m') (hf : t.Fits owners m) :
    ∀ f ∈ t'.begun, m'.value? f.cell = none := by
  have nodup := hf.nodup
  have empty := hf.empty
  intro g hg
  cases h with
  | drop | dropAside | enter _ | abort | clear | work | settle => exact empty g hg
  | finish => exact (m.value?_finish _ _ _ _).trans (empty g hg)
  | ask | askAside | nested => exact (m.value?_lookup _ _).trans (empty g hg)
  | hit _ =>
    rw [begun_deliver] at hg
    exact empty g hg
  | start hv =>
    obtain rfl | hg := List.mem_cons.1 hg
    · exact hv
    · exact empty g hg
  | unwind =>
    rw [begun_deliver] at hg
    exact empty g (List.mem_cons_of_mem _ hg)
  | @fill _ result f frames =>
    rw [begun_deliver] at hg
    have hold := empty g (List.mem_cons_of_mem f hg)
    cases result with
    | error e => exact hold
    | ok v =>
      rw [m.value?_fill_ok, if_neg]
      · exact hold
      · -- the cells of a thread are different
        rintro ⟨e, _⟩
        have again : g.cell ∈ frames.map (·.cell) := List.mem_map_of_mem hg
        have apart : f.cell ∉ frames.map (·.cell) := (List.nodup_cons.1 nodup).1
        exact apart (e ▸ again)

/-- The failure of a computation is recorded when it ends. -/
lemma Step.failed_recorded (h : Step free aside t m t' m') (hf : t.Fits owners m) :
    ∀ key, t'.failed? = some key → ∃ cell, .failed key cell ∈ m'.journal := by
  have failed := hf.failed
  intro key hk
  cases h with
  | drop | dropAside | enter _ | ask | askAside | nested | start _ | abort | clear
  | work => cases hk
  | hit _ | fill | unwind =>
    rw [failed?_deliver] at hk
    cases hk
  | @finish _ result f =>
    cases result with
    | ok v => cases hk
    | error e =>
      cases hk
      exact ⟨f.cell, List.mem_cons_self⟩
  | @settle _ result f =>
    cases result with
    | ok v => cases hk
    | error e => exact failed key hk

/-- A thread goes on fitting through its own steps. -/
lemma Step.fits (h : Step free aside t m t' m') (hf : t.Fits owners m) {more : List κ}
    (hq : ∀ key cell body resume, t'.control = .queued key cell body resume →
      (owners ++ more)[cell]? = some key)
    (hfree : ∀ c, free c = true → c ∉ t.held) : t'.Fits (owners ++ more) m' where
  owned f hg := Memo.getElem?_append_some (h.frames_owned hf f hg) more
  awaited := hq
  nodup := h.held_nodup hf.nodup hfree
  empty := h.begun_empty hf
  failed := h.failed_recorded hf

/-! ## Empty cells of a key -/

/-- While no computation of a key has ended with an error, its empty cells stay accounted for: such
a cell is pending, or about to be filled by this thread or elsewhere. -/
lemma Step.covered (h : Step free aside t m t' m') (hf : t.Fits owners m) (ho : m.Owned owners)
    {more : List κ} (ho' : m'.Owned (owners ++ more))
    (hq : ∀ key cell body resume, t'.control = .queued key cell body resume →
      (owners ++ more)[cell]? = some key) {elsewhere : Nat → Prop}
    (hheld : ∀ c ∈ t.held, ¬ elsewhere c) {key : κ}
    (hfail : ∀ cell, .failed key cell ∉ m'.journal)
    (hcov : ∀ c, owners[c]? = some key → m.value? c = none →
      Memo.cellOf? m.pending key = some c ∨ t.filling? = some c ∨ elsewhere c)
    (hc : (owners ++ more)[c]? = some key) (hv : m'.value? c = none) :
    Memo.cellOf? m'.pending key = some c ∨ t'.filling? = some c ∨ elsewhere c := by
  have old (hlt : c < m.cells.length) : owners[c]? = some key := by
    rw [← hc, List.getElem?_append_left (ho.length_eq ▸ hlt)]
  have bound : c < m'.cells.length := by
    obtain ⟨hlt, _⟩ := List.getElem?_eq_some_iff.1 hc
    exact ho'.length_eq ▸ hlt
  have hcov' (hfill : t.filling? = none) : ∀ c, owners[c]? = some key → m.value? c = none →
      Memo.cellOf? m.pending key = some c ∨ elsewhere c := by
    intro c hc hv
    obtain h | h | h := hcov c hc hv
    · exact .inl h
    · rw [hfill] at h
      cases h
    · exact .inr h
  -- most steps change neither the cells nor what is pending
  have same (hlen : m'.cells.length = m.cells.length) (hval : m'.value? c = m.value? c)
      (hp : Memo.cellOf? m'.pending key = Memo.cellOf? m.pending key)
      (hfill : t.filling? = none) :
      Memo.cellOf? m'.pending key = some c ∨ t'.filling? = some c ∨ elsewhere c := by
    rw [hp]
    exact (hcov' hfill c (old (hlen ▸ bound)) (hval ▸ hv)).imp_right .inr
  cases h with
  | drop | dropAside | enter _ | hit _ | start _ | abort | clear | work | unwind =>
    exact same rfl rfl rfl rfl
  | @finish _ result =>
    cases result with
    | ok v => exact same rfl rfl rfl rfl
    | error e => exact same rfl rfl rfl rfl
  | @ask key' | @askAside _ _ _ key' | @nested _ key' =>
    exact (ho.pending_or_of_lookup ho' (hq key' _ _ _ rfl) (hcov' rfl) hc hv).imp_right .inr
  | @settle _ result f frames =>
    by_cases hk : key = f.key
    · subst hk
      cases result with
      | error e =>
        obtain ⟨cell, hrecorded⟩ := hf.failed f.key rfl
        exact absurd hrecorded (hfail cell)
      | ok v =>
        -- the cell that is about to be filled was the only pending one of its key
        have mine := hcov f.cell (hf.owned f List.mem_cons_self) (hf.empty f List.mem_cons_self)
        obtain h | h | h := hcov c (old bound) hv
        · obtain h' | h' | h' := mine
          · exact .inr (.inl (h'.symm.trans h))
          · cases h'
          · exact absurd h' (hheld f.cell List.mem_cons_self)
        · cases h
        · exact .inr (.inr h)
    · exact same rfl rfl (Memo.cellOf?_without_of_ne hk _) rfl
  | @fill _ result f frames =>
    cases result with
    | error e =>
      exact same rfl rfl rfl rfl
    | ok v =>
      have hlt : c < m.cells.length := by
        rw [← ho.length_eq]
        exact lt_of_lt_of_eq bound (List.length_set.trans ho.length_eq.symm)
      rw [m.value?_fill_ok] at hv
      split at hv
      · cases hv
      · next hne =>
        obtain h | h | h := hcov c (old hlt) hv
        · exact .inl h
        · exact absurd ⟨Option.some.inj h, hlt⟩ hne
        · exact .inr (.inr h)

end Thread

/-! ## The invariant -/

/-- The cells of all threads are different and belong to the keys of their calls, and no empty cell
of a key is lost before a computation of the key ends with an error. -/
structure Ordered (owners : List κ) [DecidableEq κ] (s : Machine κ ν ε) : Prop where
  owned : s.memo.Owned owners
  fits : ∀ t ∈ s.threads, t.Fits owners s.memo
  apart {i j : Nat} {t u : Thread κ ν ε} : s.threads[i]? = some t → s.threads[j]? = some u →
    i ≠ j → ∀ c ∈ t.held, c ∉ u.held
  covered {key : κ} : (∀ cell, .failed key cell ∉ s.memo.journal) → ∀ c, owners[c]? = some key →
    s.memo.value? c = none →
    Memo.cellOf? s.memo.pending key = some c ∨ ∃ t ∈ s.threads, t.filling? = some c

variable [DecidableEq κ] {owners : List κ} {s s' : Machine κ ν ε} {i j : Nat} {turn : Turn}

/-- A machine that starts is in order. -/
lemma ordered_start (capacity : Nat) (pos : 0 < capacity) (threads : List (List (Call κ ν ε))) :
    Ordered [] (start (.new capacity pos) threads) where
  owned := .new capacity pos
  fits t ht := by
    obtain ⟨calls, _, rfl⟩ := List.mem_map.1 ht
    exact Thread.fits_start _ _ calls
  apart {i j t u} ht _ _ c hc := by
    obtain ⟨calls, _, rfl⟩ := List.mem_map.1 (List.mem_of_getElem? ht)
    exact absurd hc List.not_mem_nil
  covered _ c hc := absurd hc (List.getElem?_nil ▸ nofun)

omit [DecidableEq κ] in
/-- A thread after a step is the one that took it or another one as it was. -/
lemma getElem?_set_cases {threads : List (Thread κ ν ε)} {t u : Thread κ ν ε}
    (h : (threads.set i t)[j]? = some u) : (i = j ∧ u = t) ∨ (i ≠ j ∧ threads[j]? = some u) := by
  by_cases e : i = j
  · subst e
    rw [List.getElem?_set_self'] at h
    obtain ⟨_, _, rfl⟩ := Option.map_eq_some_iff.1 h
    exact .inl ⟨rfl, rfl⟩
  · rw [List.getElem?_set_ne e] at h
    exact .inr ⟨e, h⟩

omit [DecidableEq κ] in
/-- A thread holds the cell that it is about to fill. -/
lemma cell_mem_held_of_filling? {t : Thread κ ν ε} {c : Nat} (h : t.filling? = some c) :
    c ∈ t.held := by
  obtain ⟨f, frames, e, rfl, _⟩ := Thread.filling?_eq_some h
  exact Thread.cell_mem_held (e ▸ List.mem_cons_self)

/-- The steps of threads keep the invariant. -/
lemma Ordered.step (h : Ordered owners s) (hs : s.step? turn = some s') :
    ∃ more, Ordered (owners ++ more) s' := by
  obtain ⟨t, t', m', ht, hstep, rfl⟩ := step?_eq_some hs
  generalize turn.thread = i at ht ⊢
  have hmem := List.mem_of_getElem? ht
  have fits := h.fits t hmem
  have hfree : ∀ c, s.free c = true → c ∉ t.held := fun c hc => not_mem_held_of_free hc hmem
  obtain ⟨more, howned, hqueued⟩ := hstep.owned h.owned
  refine ⟨more, howned, fun u hu => ?_, fun {j k u w} hu hw hjk c hc => ?_,
    fun {key} hfail c hc hv => ?_⟩
  · -- the other threads keep the values in their cells
    obtain ⟨j, hj⟩ := List.mem_iff_getElem?.1 hu
    obtain ⟨_, rfl⟩ | ⟨hij, hu⟩ := getElem?_set_cases hj
    · exact hstep.fits fits hqueued hfree
    · exact (h.fits u (List.mem_of_getElem? hu)).mono more
        (fun c hc => hstep.value?_eq (fun hc' => h.apart ht hu hij c hc' hc))
        (fun e he => hstep.mem_journal he)
  · -- a cell that the thread takes hold of was free
    obtain ⟨rfl, rfl⟩ | ⟨hij, hj⟩ := getElem?_set_cases hu
    · obtain ⟨rfl, _⟩ | ⟨_, hw⟩ := getElem?_set_cases hw
      · exact absurd rfl hjk
      · obtain hold | hfreed := hstep.held hc
        · exact h.apart ht hw hjk c hold
        · exact not_mem_held_of_free hfreed (List.mem_of_getElem? hw)
    · obtain ⟨rfl, rfl⟩ | ⟨_, hw⟩ := getElem?_set_cases hw
      · intro hc'
        obtain hold | hfreed := hstep.held hc'
        · exact h.apart ht hj hij c hold hc
        · exact not_mem_held_of_free hfreed (List.mem_of_getElem? hj) hc
      · exact h.apart hj hw hjk c hc
  · -- the cells that other threads are about to fill
    let elsewhere (c : Nat) : Prop :=
      ∃ j u, i ≠ j ∧ s.threads[j]? = some u ∧ u.filling? = some c
    have hheld : ∀ c ∈ t.held, ¬ elsewhere c := by
      rintro c hc ⟨j, u, hij, hu, hfill⟩
      exact h.apart ht hu hij c hc (cell_mem_held_of_filling? hfill)
    have hcov : ∀ c, owners[c]? = some key → s.memo.value? c = none →
        Memo.cellOf? s.memo.pending key = some c ∨ t.filling? = some c ∨ elsewhere c := by
      intro c hc hv
      refine (h.covered (fun cell hf => hfail cell (hstep.mem_journal hf)) c hc hv).imp_right ?_
      rintro ⟨u, hu, hfill⟩
      obtain ⟨j, hj⟩ := List.mem_iff_getElem?.1 hu
      by_cases hij : i = j
      · obtain rfl := Option.some.inj ((hij ▸ ht).symm.trans hj)
        exact .inl hfill
      · exact .inr ⟨j, u, hij, hj, hfill⟩
    obtain hp | hfill | ⟨j, u, hij, hu, hfill⟩ :=
      hstep.covered fits h.owned howned hqueued hheld hfail hcov hc hv
    · exact .inl hp
    · obtain ⟨hlt, _⟩ := List.getElem?_eq_some_iff.1 ht
      exact .inr ⟨t', List.mem_set hlt t', hfill⟩
    · exact .inr ⟨u, List.mem_of_getElem? ((List.getElem?_set_ne hij).trans hu), hfill⟩

/-- The invariant holds in every state that threads reach from the beginning. -/
lemma exists_ordered {capacity : Nat} {pos : 0 < capacity} {threads : List (List (Call κ ν ε))}
    (h : Reaches (start (.new capacity pos) threads) s) : ∃ owners, Ordered owners s :=
  h.keeps_owners Ordered.step (ordered_start capacity pos threads)

/-- A thread computes a key when it is inside of a computation of it. -/
def Thread.Computes (t : Thread κ ν ε) (key : κ) : Prop := ∃ f ∈ t.inside, f.key = key

/-- At most one thread computes the key. -/
def AtMostOneComputing (s : Machine κ ν ε) (key : κ) : Prop :=
  ∀ (i j : Nat) (t u : Thread κ ν ε), s.threads[i]? = some t → s.threads[j]? = some u →
    t.Computes key → u.Computes key → i = j

/-- The cell of a computation that a thread is inside of is pending, as long as no computation of
the key has ended with an error. -/
lemma Ordered.cellOf?_pending (h : Ordered owners s) {key : κ}
    (hfail : ∀ cell, .failed key cell ∉ s.memo.journal) {t : Thread κ ν ε}
    (ht : s.threads[i]? = some t) {f : Frame κ ν ε} (hf : f ∈ t.inside) (hk : f.key = key) :
    Memo.cellOf? s.memo.pending key = some f.cell := by
  have fits := h.fits t (List.mem_of_getElem? ht)
  have begun := Thread.mem_begun_of_inside hf
  have framed := Thread.mem_frames_of_begun begun
  have howner : owners[f.cell]? = some key := hk ▸ fits.owned f framed
  obtain hp | ⟨u, hu, hfill⟩ := h.covered hfail f.cell howner (fits.empty f begun)
  · exact hp
  · obtain ⟨j, hj⟩ := List.mem_iff_getElem?.1 hu
    by_cases hij : i = j
    · -- a thread that fills a cell is not inside of its computation
      obtain rfl := Option.some.inj ((hij ▸ ht).symm.trans hj)
      obtain ⟨g, frames, hframes, hcell, hinside⟩ := Thread.filling?_eq_some hfill
      have nodup := fits.nodup
      rw [Thread.held, hframes, List.map_cons, hcell] at nodup
      exact absurd (List.mem_map_of_mem (hinside ▸ hf)) (List.nodup_cons.1 nodup).1
    · exact absurd (cell_mem_held_of_filling? hfill)
        (h.apart ht hj hij f.cell (Thread.cell_mem_held framed))

/-- As long as no computation of a key has ended with an error, at most one thread computes it. -/
theorem Ordered.atMostOneComputing (h : Ordered owners s) {key : κ}
    (hfail : ∀ cell, .failed key cell ∉ s.memo.journal) : s.AtMostOneComputing key := by
  rintro i j t u ht hu ⟨f, hf, hfk⟩ ⟨g, hg, hgk⟩
  refine Decidable.byContradiction fun hij => ?_
  have e := (h.cellOf?_pending hfail ht hf hfk).symm.trans (h.cellOf?_pending hfail hu hg hgk)
  have held (w : Thread κ ν ε) {f : Frame κ ν ε} (hf : f ∈ w.inside) : f.cell ∈ w.held :=
    Thread.cell_mem_held (Thread.mem_frames_of_begun (Thread.mem_begun_of_inside hf))
  exact h.apart ht hu hij f.cell (held t hf) (Option.some.inj e ▸ held u hg)

end Machine

end RuleFormula
