import Mathlib.Data.Fintype.EquivFin
import RuleFormula.Proofs.Memo.CallLaw

/-!
# How many keys a memo retains

The capacity bounds the recently used keys, but not the pending ones. A value or an error takes the
key of its computation out of the pending ones, and a fault does not. So a pending key is being
computed, or its last computation ended by a fault (`Reached.tracked`). When nothing is being
computed, a memo retains at most one key over its capacity for each key that was abandoned in this
way, and it may come to retain as many (`retained_le_iff`).
-/

namespace RuleFormula

namespace Memo

variable {κ ν ε : Type} [DecidableEq κ] {m m' : Memo κ ν} {key : κ} {busy : List κ}
  {capacity : Nat} {body : Memo κ ν → Outcome ε ν × Memo κ ν}

/-- The keys in a table. -/
def keys (table : List (κ × Nat)) : List κ := table.map Prod.fst

/-- The keys that a memo retains, as recently used ones or as pending ones. -/
def retained (m : Memo κ ν) : List κ := (keys m.recent ++ keys m.pending).dedup

/-- The keys whose last computation ended by a fault. -/
def abandoned : List (Event κ ν) → List κ
  | [] => []
  | .aborted key _ :: before => key :: (abandoned before).filter (· ≠ key)
  | .produced key _ _ :: before | .failed key _ :: before => (abandoned before).filter (· ≠ key)
  | _ :: before => abandoned before

/-! ## Pending keys are tracked -/

/-- The pending keys are being computed, or their last computation ended by a fault. -/
def Tracked (busy : List κ) (m : Memo κ ν) : Prop :=
  ∀ k ∈ keys m.pending, k ∈ busy ∨ k ∈ abandoned m.journal

/-- A hit changes neither what is pending nor what is under way. -/
lemma Tracked.hit {v : ν} (h : Tracked busy m) (hv : m.value? (m.lookup key).1 = some v) :
    Tracked busy ((m.lookup key).2.hit key (m.lookup key).1) := by
  intro k hk
  show k ∈ busy ∨ k ∈ abandoned (.hit key (m.lookup key).1 :: (m.lookup key).2.journal)
  rw [journal_lookup]
  obtain ⟨pending, _⟩ | ⟨_, new, _⟩ := m.pending_lookup key
  · exact h k (pending ▸ hk)
  · -- a cell that was made just now is empty
    rw [new] at hv
    exact absurd (lt_length_of_value? hv) (Nat.lt_irrefl _)

/-- A computation that starts makes its key pending. -/
lemma Tracked.started (h : Tracked busy m) (key : κ) : Tracked (key :: busy) (m.started key) := by
  intro k hk
  rw [journal_started]
  obtain ⟨pending, _⟩ | ⟨_, _, pending, _⟩ := m.pending_lookup key
  · exact (h k (pending ▸ hk)).imp_left (List.mem_cons_of_mem key)
  · have pending : keys (m.started key).pending = key :: keys m.pending := congrArg keys pending
    rw [pending] at hk
    obtain rfl | hk := List.mem_cons.1 hk
    · exact .inl List.mem_cons_self
    · exact (h k hk).imp_left (List.mem_cons_of_mem key)

/-- However a computation ends, its key is tracked afterwards: a fault abandons it, and otherwise it
is not pending any more. -/
lemma Tracked.conclude (h : Tracked (key :: busy) m) (cell : Nat) (outcome : Outcome ε ν) :
    Tracked busy (conclude key cell (outcome, m)).2 := by
  have other {k : κ} (hk : k ∈ keys m.pending) (ne : k ≠ key) :
      k ∈ busy ∨ k ∈ (abandoned m.journal).filter (· ≠ key) := by
    refine (h k hk).imp (fun hb => (List.mem_cons.1 hb).resolve_left ne) fun ha => ?_
    exact List.mem_filter.2 ⟨ha, decide_eq_true ne⟩
  have settled {k : κ} (hk : k ∈ keys (without m.pending key)) :
      k ∈ busy ∨ k ∈ (abandoned m.journal).filter (· ≠ key) := by
    rw [keys, map_fst_without] at hk
    exact other (List.mem_filter.1 hk).1 (of_decide_eq_true (List.mem_filter.1 hk).2)
  intro k hk
  cases outcome with
  | aborted fault =>
    by_cases e : k = key
    · exact .inr (e ▸ List.mem_cons_self)
    · exact (other hk e).imp_right (List.mem_cons_of_mem key)
  | returned result =>
    cases result with
    | ok v => exact settled hk
    | error e => exact settled hk

/-- A call keeps track when its computation does. -/
lemma Tracked.getWith (h : Tracked busy m) (hbody : Misses m key →
      Tracked (key :: busy) (m.started key) → Tracked (key :: busy) (body (m.started key)).2) :
    Tracked busy (m.getWith key body).2 := by
  cases hv : m.value? (m.lookup key).1 with
  | some v =>
    rw [getWith_of_value? hv]
    exact h.hit hv
  | none =>
    have misses : Misses m key := hv
    rw [misses.getWith_eq]
    exact (hbody misses (h.started key)).conclude _ _

/-- What a caller that is alone does keeps all pending keys tracked. -/
lemma Runs.tracked (h : Runs busy m m') (hm : Tracked busy m) : Tracked busy m' := by
  induction h with
  | done m => exact hm
  | clear _ ih | work _ _ _ ih => exact ih hm
  | get _ _ _ ihbody ih => exact ih (hm.getWith ihbody)

/-- Every memo that is reached is tracked. -/
lemma Reached.tracked (h : Reached capacity busy m) : Tracked busy m := by
  induction h with
  | outside pos h => exact h.tracked fun k hk => absurd hk List.not_mem_nil
  | inside _ _ _ h ih => exact h.tracked (ih.started _)

/-- A memo retains no more keys than it has room for, besides those that are being computed and
those that were abandoned. -/
lemma Reached.retained_le (h : Reached capacity busy m) :
    m.retained.length ≤ capacity + (busy ++ abandoned m.journal).length := by
  obtain ⟨owners, consistent⟩ := h.consistent
  have recent : (keys m.recent).length ≤ capacity := by
    rw [keys, consistent.recency, ← h.capacity_eq]
    exact List.length_take_le _ _
  have sub : m.retained ⊆ keys m.recent ++ (busy ++ abandoned m.journal) := by
    intro k hk
    rw [retained, List.mem_dedup, List.mem_append] at hk
    rw [List.mem_append, List.mem_append]
    exact hk.imp_right (h.tracked k)
  have le := ((List.nodup_dedup _).subperm sub).length_le
  rw [List.length_append] at le
  exact le.trans (Nat.add_le_add_right recent _)

/-! ## Abandoned keys stay -/

/-- The memo after a call whose computation ends at once. -/
def visit (outcome : Outcome ε ν) (m : Memo κ ν) (key : κ) : Memo κ ν :=
  (m.getWith key fun m => (outcome, m)).2

/-- A call that computes at once leads from a memo that is reached to one. -/
lemma Reached.visit (h : Reached capacity [] m) (outcome : Outcome ε ν) (key : κ) :
    Reached capacity [] (visit outcome m key) := by
  cases h with
  | outside pos h =>
    exact .outside pos (h.trans (.get List.not_mem_nil (fun _ => .done _) (.done _)))

/-- The keys were looked up in this order, the latest first, and the lost ones are pending, for
their computations ended by faults. -/
structure Lost (lost used : List κ) (m : Memo κ ν) : Prop where
  recent_eq : keys m.recent = used.take m.capacity
  pending_eq : keys m.pending = lost
  abandoned_eq : abandoned m.journal = lost

variable {lost used : List κ}

/-- A key that is not in a table has no cell in it. -/
lemma cellOf?_eq_none {table : List (κ × Nat)} (h : key ∉ keys table) :
    cellOf? table key = none := by
  cases hc : cellOf? table key with
  | none => rfl
  | some cell => exact absurd (mem_map_fst_iff.2 ⟨cell, hc⟩) h

/-- The computation of a new key starts: the key is the latest used one, and pending. -/
lemma Lost.started (h : Lost lost used m) (hu : key ∉ used) (hl : key ∉ lost) :
    Misses m key ∧ keys (m.started key).recent = (key :: used).take m.capacity ∧
      keys (m.started key).pending = key :: lost ∧ abandoned (m.started key).journal = lost := by
  have hr : key ∉ keys m.recent := h.recent_eq ▸ fun hm => hu (List.mem_of_mem_take hm)
  have found := lookup_of_none (cellOf?_eq_none hr) (cellOf?_eq_none (h.pending_eq ▸ hl))
  refine ⟨?_, ?_, ?_, ?_⟩
  · rw [Misses, found, value?, List.getElem?_eq_none (Nat.le_refl _)]
    rfl
  · have front : keys (m.started key).recent = (key :: keys m.recent).take m.capacity := by
      rw [Memo.started, found]
      show keys (((key, m.cells.length) :: without m.recent key).take m.capacity) = _
      rw [keys, List.map_take, List.map_cons, map_fst_without]
      exact congrArg (fun l => (key :: l).take m.capacity) (filter_ne_of_not_mem hr)
    obtain ⟨n, hn⟩ := Nat.exists_eq_add_one_of_ne_zero (Nat.ne_of_gt m.capacity_pos)
    rw [front, h.recent_eq, hn, List.take_succ_cons, List.take_succ_cons, List.take_take,
      Nat.min_eq_left (Nat.le_succ n)]
  · rw [Memo.started, found, ← h.pending_eq]
    rfl
  · rw [journal_started, ← h.abandoned_eq]
    rfl

/-- A fault of the computation of a new key loses the key, an error does not. -/
lemma Lost.after_visit (h : Lost lost used m) (hu : key ∉ used) (hl : key ∉ lost) (fault : Fault)
    (e : ε) :
    Lost (key :: lost) (key :: used) (visit (.aborted fault : Outcome ε ν) m key) ∧
      Lost lost (key :: used) (visit (.returned (.error e) : Outcome ε ν) m key) := by
  obtain ⟨misses, recent, pending, same⟩ := h.started hu hl
  have dropped : (abandoned (m.started key).journal).filter (· ≠ key) = lost := by
    rw [same, filter_ne_of_not_mem hl]
  rw [← capacity_lookup m key] at recent
  rw [visit, visit, misses.getWith_eq, misses.getWith_eq]
  refine ⟨⟨recent, pending, congrArg (key :: ·) dropped⟩, recent, ?_, dropped⟩
  show keys (without (m.started key).pending key) = lost
  rw [keys, map_fst_without]
  show (keys (m.started key).pending).filter (· ≠ key) = lost
  rw [pending, List.filter_cons_of_neg (by simp), filter_ne_of_not_mem hl]

/-- Any keys can be lost, and any others looked up after that. -/
lemma exists_lost (pos : 0 < capacity) {later : List κ} (h : (later ++ lost).Nodup) :
    ∃ m : Memo κ ν, Reached capacity [] m ∧ Lost lost (later ++ lost) m := by
  induction later with
  | nil =>
    rw [List.nil_append] at h ⊢
    induction lost with
    | nil => exact ⟨.new capacity pos, .outside pos (.done _), List.take_nil.symm, rfl, rfl⟩
    | cons key lost ih =>
      obtain ⟨hk, h⟩ := List.nodup_cons.1 h
      obtain ⟨m, reached, hm⟩ := ih h
      exact ⟨_, reached.visit _ key, (hm.after_visit hk hk .undefinedTested ()).1⟩
  | cons key later ih =>
    obtain ⟨hk, h⟩ := List.nodup_cons.1 h
    obtain ⟨m, reached, hm⟩ := ih h
    have hl : key ∉ lost := fun hm => hk (List.mem_append_right later hm)
    exact ⟨_, reached.visit _ key, (hm.after_visit hk hl .undefinedTested ()).2⟩

/-- When nothing is being computed and at most `n` keys are abandoned, a memo retains at most as
many keys over its capacity, and no smaller number is enough. So the capacity is a bound where no
key is abandoned, and only there. -/
theorem retained_le_iff [Infinite κ] (pos : 0 < capacity) (n b : Nat) :
    (∀ m : Memo κ ν, Reached capacity [] m → (abandoned m.journal).length ≤ n →
      m.retained.length ≤ capacity + b) ↔ n ≤ b := by
  constructor
  · intro bound
    let all : List κ := (List.range (capacity + n)).map (Infinite.natEmbedding κ)
    have nodup : all.Nodup := List.nodup_range.map (Infinite.natEmbedding κ).injective
    have length : all.length = capacity + n := by rw [List.length_map, List.length_range]
    have split : all.take capacity ++ all.drop capacity = all := List.take_append_drop _ _
    have apart : (all.take capacity ++ all.drop capacity).Nodup := by rwa [split]
    obtain ⟨m, reached, recent_eq, pending_eq, abandoned_eq⟩ :
        ∃ m : Memo κ ν, Reached capacity [] m ∧
          Lost (all.drop capacity) (all.take capacity ++ all.drop capacity) m :=
      exists_lost pos apart
    have lost : (abandoned m.journal).length ≤ n := by
      rw [abandoned_eq, List.length_drop, length, Nat.add_sub_cancel_left]
    have le := bound m reached lost
    rw [retained, recent_eq, pending_eq, reached.capacity_eq, split, split, nodup.dedup,
      length] at le
    exact Nat.le_of_add_le_add_left le
  · intro le m reached hn
    exact reached.retained_le.trans (Nat.add_le_add_left (hn.trans le) capacity)

/-- With room for one key, and no key given up on, one key at most is retained. -/
theorem retained_le_one : Infinite Nat ∧ 0 < 1 ∧
    ∀ m : Memo Nat Nat, Reached 1 [] m → (abandoned m.journal).length ≤ 0 →
      m.retained.length ≤ 1 + 0 :=
  ⟨inferInstance, Nat.one_pos, (retained_le_iff Nat.one_pos 0 0).2 (Nat.le_refl 0)⟩

/-- With room for one key: after the computations of two keys ended by faults, both are retained. -/
theorem two_retained_after_faults :
    ∃ m : Memo String Nat, Reached 1 [] m ∧ ¬ m.retained.length ≤ 1 := by
  let boom : Outcome Unit Nat := .aborted (.raised "boom")
  refine ⟨visit boom (visit boom (.new 1 Nat.one_pos) "k") "j", ?_, by decide⟩
  exact (Reached.visit (.outside Nat.one_pos (.done _)) boom "k").visit boom "j"

end Memo

end RuleFormula
