import RuleFormula.Proofs.Memo.Endings
import RuleFormula.Proofs.Memo.Specified

/-!
# Threads whose calls meet a specification

A computation that meets a specification of the keys (`Computation.Meets`) relies on the values that
other calls bring into the memo. Where threads share the memo, these may be calls of other threads,
which take steps at any time. `Thread.Meets` says of each place in which a thread may be that it
goes on as specified, and `Kept` adds that the memo is sound. Every step keeps it (`Kept.step`), so
that no computation ends otherwise than specified of its key, whatever the threads do
(`exists_kept`).
-/

namespace RuleFormula

namespace Machine

variable {κ ν ε : Type} {spec : κ → Outcome ε ν → Prop}

/-! ## Where a thread may be -/

/-- However a call of a key ends, if only as specified, the computation that made the call goes on
as specified of its own key, and so does the computation for which a call was taken up aside. A call
that the thread made stands alone. -/
def GoesOn (spec : κ → Outcome ε ν → Prop) (key : κ) : Resume κ ν ε → List (Frame κ ν ε) → Prop
  | .thread, frames => frames = []
  | .nested next, f :: _ => ∀ outcome : Outcome ε (Shared ν), spec key outcome.plain →
    (next outcome).Meets spec (spec f.key)
  | .aside rest, f :: _ => rest.Meets spec (spec f.key)
  | .nested _, [] | .aside _, [] => False

/-- After each of the calls that a thread is in, the one around it goes on as specified. -/
inductive Stacked (spec : κ → Outcome ε ν → Prop) : List (Frame κ ν ε) → Prop
  | nil : Stacked spec []
  | cons {f frames} : GoesOn spec f.key f.resume frames → Stacked spec frames →
    Stacked spec (f :: frames)

/-- The innermost call goes on as specified of its key. -/
def Control.Meets (spec : κ → Outcome ε ν → Prop) : Control κ ν ε → List (Frame κ ν ε) → Prop
  | .idle, frames => frames = []
  | .queued key _ body resume, frames =>
    (body ()).Meets spec (spec key) ∧ GoesOn spec key resume frames
  | .entered body, f :: _ => (body ()).Meets spec (spec f.key)
  | .running rest, f :: _ => rest.Meets spec (spec f.key)
  | .ended result, f :: _ | .settled result, f :: _ => spec f.key (.returned result)
  | .unwinding fault, f :: _ => spec f.key (.aborted fault)
  | _, [] => False

/-- A thread goes on as specified, and so do the calls that it has yet to make. -/
structure Thread.Meets (spec : κ → Outcome ε ν → Prop) (t : Thread κ ν ε) : Prop where
  calls : ∀ key body, .get key body ∈ t.calls → (body ()).Meets spec (spec key)
  control : t.control.Meets spec t.frames
  frames : Stacked spec t.frames

namespace Thread

variable {t t' : Thread κ ν ε} {m m' : Memo κ ν} {free : Nat → Bool} {aside : Bool}
  {owners : List κ}

/-- A thread that has not begun meets the contract when the calls that it will make do. -/
lemma meets_start {calls : List (Call κ ν ε)}
    (h : ∀ key body, .get key body ∈ calls → (body ()).Meets spec (spec key)) :
    (start calls).Meets spec :=
  ⟨h, rfl, .nil⟩

/-- A thread goes on as specified when a call ended as specified. -/
lemma meets_deliver {key : κ} {resume : Resume κ ν ε} {outcome : Outcome ε (Shared ν)}
    (hc : ∀ key body, .get key body ∈ t.calls → (body ()).Meets spec (spec key))
    (hs : Stacked spec t.frames) (hg : GoesOn spec key resume t.frames)
    (ho : spec key outcome.plain) : (t.deliver resume outcome).Meets spec := by
  obtain ⟨calls, control, frames, results⟩ := t
  cases resume with
  | thread => exact ⟨hc, hg, hs⟩
  | nested next =>
    cases frames with
    | nil => exact hg.elim
    | cons f frames => exact ⟨hc, hg outcome ho, hs⟩
  | aside rest =>
    cases frames with
    | nil => exact hg.elim
    | cons f frames => exact ⟨hc, hg, hs⟩

/-- A thread that goes on as specified ends a computation with an error only where its key may have
one. -/
lemma Meets.error_of_ending (h : t.Meets spec) {key : κ} {cell : Nat}
    (he : t.ending? = some (.failed key cell)) : ∃ e, spec key (.returned (.error e)) := by
  obtain ⟨_, hm, _⟩ := h
  obtain ⟨calls, control, frames, results⟩ := t
  unfold ending? at he
  dsimp only at he hm
  split at he
  · cases he
  · next e f frames _ _ =>
    cases he
    exact ⟨e, hm⟩
  · cases he
  · cases he

variable [DecidableEq κ]

/-- A thread goes on as specified through its own steps, if only it finds values as specified. -/
lemma Step.meets (h : Step free aside t m t' m') (ht : t.Meets spec)
    (hv : ∀ f ∈ t.frames, ∀ v, m.value? f.cell = some v → spec f.key (.returned (.ok v))) :
    t'.Meets spec := by
  obtain ⟨hc, hm, hs⟩ := ht
  have later {call : Call κ ν ε} {calls : List (Call κ ν ε)}
      (hc : ∀ key body, .get key body ∈ call :: calls → (body ()).Meets spec (spec key)) :
      ∀ key body, .get key body ∈ calls → (body ()).Meets spec (spec key) :=
    fun key body hmem => hc key body (List.mem_cons_of_mem _ hmem)
  cases h with
  | drop | dropAside => exact ⟨later hc, hm, hs⟩
  | ask => exact ⟨later hc, ⟨hc _ _ List.mem_cons_self, hm⟩, hs⟩
  | @askAside _ _ _ _ _ _ frames =>
    cases frames with
    | nil => exact hm.elim
    | cons f frames => exact ⟨later hc, ⟨hc _ _ List.mem_cons_self, hm⟩, hs⟩
  | enter _ => exact ⟨hc, hm.1, .cons hm.2 hs⟩
  | hit he =>
    cases hs with
    | cons hg hs => exact meets_deliver hc hs hg (hv _ List.mem_cons_self _ he)
  | start _ | finish | settle => exact ⟨hc, hm, hs⟩
  | @abort _ _ frames | @clear _ _ frames | @work _ _ _ _ frames =>
    cases frames with
    | nil => exact hm.elim
    | cons f frames => exact ⟨hc, hm, hs⟩
  | @nested _ _ _ _ frames =>
    cases frames with
    | nil => exact hm.elim
    | cons f frames => exact ⟨hc, ⟨hm.1, hm.2⟩, hs⟩
  | @fill _ result f =>
    cases hs with
    | cons hg hs =>
      have ended : spec f.key (.returned result) := hm
      rw [← Outcome.plain_share f.cell result] at ended
      exact meets_deliver hc hs hg ended
  | unwind =>
    cases hs with
    | cons hg hs => exact meets_deliver hc hs hg hm

/-- A thread that goes on as specified brings only suitable values into the memo. -/
lemma Step.sound (h : Step free aside t m t' m') (ht : t.Meets spec) (hf : t.Fits owners m)
    (hm : m.Sound (Suits spec) owners) {more : List κ} (ho : m'.Owned (owners ++ more)) :
    m'.Sound (Suits spec) (owners ++ more) := by
  refine ⟨ho, fun {c k v} hk hv => ?_⟩
  obtain e | ⟨f, frames, w, hcontrol, hframes, rfl, e⟩ := h.value?_cases c
  · rw [e] at hv
    rw [List.getElem?_append_left (hm.length_eq ▸ Memo.lt_length_of_value? hv)] at hk
    exact hm.suits hk hv
  · obtain rfl := Option.some.inj (e.symm.trans hv)
    have howner := Memo.getElem?_append_some (hf.owned f (hframes ▸ List.mem_cons_self)) more
    obtain rfl := Option.some.inj (howner.symm.trans hk)
    have hmeets := ht.control
    rw [hcontrol, hframes] at hmeets
    exact hmeets

end Thread

/-! ## The invariant -/

variable [DecidableEq κ] {s s' : Machine κ ν ε} {owners : List κ}

/-- All threads go on as specified, each value suits the owner of its cell, and computations ended
with errors only where their keys may have one. -/
structure Kept (spec : κ → Outcome ε ν → Prop) (owners : List κ) (s : Machine κ ν ε) : Prop
    extends Ordered owners s where
  sound : s.memo.Sound (Suits spec) owners
  meets : ∀ t ∈ s.threads, t.Meets spec
  errors {key : κ} {cell : Nat} : .failed key cell ∈ s.memo.journal →
    ∃ e, spec key (.returned (.error e))

/-- A machine that starts keeps the contract when its calls do. -/
lemma kept_start (capacity : Nat) (pos : 0 < capacity) {threads : List (List (Call κ ν ε))}
    (h : ∀ calls ∈ threads, ∀ key body, .get key body ∈ calls → (body ()).Meets spec (spec key)) :
    Kept spec [] (start (.new capacity pos) threads) where
  toOrdered := ordered_start capacity pos threads
  sound := .new capacity pos
  meets t ht := by
    obtain ⟨calls, hcalls, rfl⟩ := List.mem_map.1 ht
    exact Thread.meets_start (h calls hcalls)
  errors he := absurd he List.not_mem_nil

/-- The steps of threads keep the invariant. -/
lemma Kept.step (h : Kept spec owners s) {turn : Turn} (hs : s.step? turn = some s') :
    ∃ more, Kept spec (owners ++ more) s' := by
  obtain ⟨more, ordered⟩ := h.toOrdered.step hs
  obtain ⟨t, t', m', ht, hstep, rfl⟩ := step?_eq_some hs
  have hmem := List.mem_of_getElem? ht
  have fits := h.fits t hmem
  have meets := h.meets t hmem
  refine ⟨more, ordered, hstep.sound meets fits h.sound ordered.owned, fun u hu => ?_,
    fun {key cell} he => ?_⟩
  · obtain hu | rfl := List.mem_or_eq_of_mem_set hu
    · exact h.meets u hu
    · exact hstep.meets meets fun f hf v hv => h.sound.suits (fits.owned f hf) hv
  · obtain ⟨new, hj, ends⟩ := hstep.journal_eq
    obtain he | he := List.mem_append.1 (hj ▸ he)
    · exact meets.error_of_ending ((ends (.failed key cell) (Option.some_ne_none _)).1 he)
    · exact h.errors he

/-- The invariant holds in every state that threads reach if their calls meet the specification. -/
lemma exists_kept {capacity : Nat} {pos : 0 < capacity} {threads : List (List (Call κ ν ε))}
    (hcalls : ∀ calls ∈ threads, ∀ key body, .get key body ∈ calls →
      (body ()).Meets spec (spec key))
    (h : Reaches (start (.new capacity pos) threads) s) : ∃ owners, Kept spec owners s :=
  h.keeps_owners (fun h hs => h.step hs) (kept_start capacity pos hcalls)

end Machine

end RuleFormula
