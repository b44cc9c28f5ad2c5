import Mathlib.Data.List.Dedup
import RuleFormula.Proofs.Memo.Owners

/-!
# The recently used keys

The recently used keys of a memo can be told from its journal: they are the keys that were looked up
since the last clear, ordered by their last lookup, as far as the capacity goes (`Recency`). Each
operation keeps it so. A key is therefore among them exactly when it was looked up, no clear came
since, and fewer other keys were looked up since than the memo has room for (`Recency.cellOf?_iff`).
-/

namespace RuleFormula

namespace Memo

variable {κ ν ε : Type} [DecidableEq κ] {m : Memo κ ν} {key k : κ} {since before : List (Event κ ν)}

/-- The keys that were looked up since the last clear, each once, by their last lookup. -/
def latest : List (Event κ ν) → List κ
  | [] => []
  | .lookup key :: before => key :: (latest before).filter (· ≠ key)
  | .clear :: _ => []
  | _ :: before => latest before

omit [DecidableEq κ] in
/-- The keys that were looked up. -/
def lookedUp (events : List (Event κ ν)) : List κ :=
  events.filterMap fun
    | .lookup key => some key
    | _ => none

omit [DecidableEq κ] in
/-- A key was looked up when the journal has a lookup of it. -/
lemma mem_lookedUp : k ∈ lookedUp since ↔ .lookup k ∈ since := by
  rw [lookedUp, List.mem_filterMap]
  constructor
  · rintro ⟨e, he, hk⟩
    cases e with
    | lookup _ => exact Option.some.inj hk ▸ he
    | _ => cases hk
  · intro h
    exact ⟨_, h, rfl⟩

/-- Each key that was looked up is listed once. -/
lemma nodup_latest (events : List (Event κ ν)) : (latest events).Nodup := by
  induction events with
  | nil => exact List.nodup_nil
  | cons e before ih =>
    cases e with
    | lookup key =>
      refine List.nodup_cons.2 ⟨fun h => ?_, ih.filter _⟩
      exact absurd rfl (of_decide_eq_true (List.mem_filter.1 h).2)
    | clear => exact List.nodup_nil
    | _ => exact ih

/-! ## Where a key stands -/

/-- Where nothing was cleared, the keys by their last lookup are all keys that were looked up. -/
lemma mem_latest (hc : .clear ∉ since) : k ∈ latest since ↔ .lookup k ∈ since := by
  induction since with
  | nil => exact ⟨nofun, nofun⟩
  | cons e since ih =>
    obtain ⟨hne, hcs⟩ := List.ne_and_not_mem_of_not_mem_cons hc
    cases e with
    | lookup key =>
      rw [latest, List.mem_cons, List.mem_cons, List.mem_filter, ih hcs, Event.lookup.injEq]
      by_cases e : k = key
      · exact ⟨fun _ => .inl e, fun _ => .inl e⟩
      · exact or_congr_right (and_iff_left (decide_eq_true e))
    | clear => exact absurd rfl hne
    | _ =>
      rw [List.mem_cons]
      exact (ih hcs).trans ⟨.inr, fun h => h.resolve_left nofun⟩

/-- Since a clear, as many keys are listed as different ones were looked up. -/
lemma length_latest (hc : .clear ∉ since) :
    (latest since).length = (lookedUp since).dedup.length := by
  have same := List.perm_ext_iff_of_nodup (nodup_latest since) (List.nodup_dedup (lookedUp since))
  refine (same.2 fun k => ?_).length_eq
  rw [mem_latest hc, List.mem_dedup, mem_lookedUp]

/-- A key stands behind those that were looked up after it. -/
lemma latest_append (hc : .clear ∉ since) (hk : .lookup key ∉ since) (before : List (Event κ ν)) :
    ∃ rest, latest (since ++ .lookup key :: before) = latest since ++ key :: rest := by
  induction since with
  | nil => exact ⟨_, rfl⟩
  | cons e since ih =>
    obtain ⟨hne, hcs⟩ := List.ne_and_not_mem_of_not_mem_cons hc
    obtain ⟨hke, hks⟩ := List.ne_and_not_mem_of_not_mem_cons hk
    obtain ⟨rest, e'⟩ := ih hcs hks
    cases e with
    | lookup k =>
      have ne : key ≠ k := fun e => hke (congrArg _ e)
      refine ⟨rest.filter (· ≠ k), ?_⟩
      rw [List.cons_append, latest, latest, e', List.filter_append,
        List.filter_cons_of_pos (by simpa using ne), List.cons_append]
    | clear => exact absurd rfl hne
    | _ => exact ⟨rest, e'⟩

/-- A key that has a place was looked up, and nothing was cleared since. -/
lemma exists_of_mem_latest {events : List (Event κ ν)} (h : key ∈ latest events) :
    ∃ since before, events = since ++ .lookup key :: before ∧ .lookup key ∉ since ∧
      .clear ∉ since := by
  induction events with
  | nil => cases h
  | cons e events ih =>
    have later (h : key ∈ latest events) (hk : e ≠ .lookup key) (hc : e ≠ .clear) :
        ∃ since before, e :: events = since ++ .lookup key :: before ∧ .lookup key ∉ since ∧
          .clear ∉ since := by
      obtain ⟨since, before, rfl, hks, hcs⟩ := ih h
      refine ⟨e :: since, before, rfl, ?_, ?_⟩
      · exact List.not_mem_cons_of_ne_of_not_mem hk.symm hks
      · exact List.not_mem_cons_of_ne_of_not_mem hc.symm hcs
    cases e with
    | lookup k =>
      by_cases e : key = k
      · subst e
        exact ⟨[], events, rfl, List.not_mem_nil, List.not_mem_nil⟩
      · obtain e' | h := List.mem_cons.1 h
        · exact absurd e' e
        · exact later (List.mem_filter.1 h).1 (fun e' => e (Event.lookup.inj e').symm) nofun
    | clear => cases h
    | _ => exact later h nofun nofun

omit [DecidableEq κ] in
/-- A key of a list without repetition is among the first ones when there is room for it. -/
lemma mem_take_append_iff {l rest : List κ} (h : (l ++ key :: rest).Nodup) (n : Nat) :
    key ∈ (l ++ key :: rest).take n ↔ l.length < n := by
  constructor
  · intro hm
    by_contra hn
    rw [List.take_append_of_le_length (Nat.le_of_not_lt hn)] at hm
    exact (List.nodup_append.1 h).2.2 key (List.mem_of_mem_take hm) key List.mem_cons_self rfl
  · intro hn
    obtain ⟨d, rfl⟩ := Nat.exists_eq_add_of_lt hn
    rw [Nat.add_assoc, List.take_length_add_append, List.take_succ_cons]
    exact List.mem_append_right l List.mem_cons_self

/-- A key is among the first ones when it was looked up, nothing was cleared since, and not too many
other keys were looked up since. -/
lemma mem_take_latest_iff {events : List (Event κ ν)} {n : Nat} : key ∈ (latest events).take n ↔
    ∃ since before, events = since ++ .lookup key :: before ∧ .lookup key ∉ since ∧
      .clear ∉ since ∧ (lookedUp since).dedup.length < n := by
  constructor
  · intro h
    obtain ⟨since, before, rfl, hk, hc⟩ := exists_of_mem_latest (List.mem_of_mem_take h)
    have nodup := nodup_latest (since ++ .lookup key :: before)
    obtain ⟨rest, e⟩ := latest_append hc hk before
    rw [e] at h nodup
    exact ⟨since, before, rfl, hk, hc, length_latest hc ▸ (mem_take_append_iff nodup n).1 h⟩
  · rintro ⟨since, before, rfl, hk, hc, hn⟩
    have nodup := nodup_latest (since ++ .lookup key :: before)
    obtain ⟨rest, e⟩ := latest_append hc hk before
    rw [e] at nodup ⊢
    exact (mem_take_append_iff nodup n).2 (length_latest hc ▸ hn)

/-! ## The table of recently used keys -/

/-- The recently used keys are those that were looked up last. -/
def Recency (m : Memo κ ν) : Prop := m.recent.map Prod.fst = (latest m.journal).take m.capacity

/-- In a new memo no key was looked up. -/
lemma Recency.new (capacity : Nat) (pos : 0 < capacity) :
    Recency (Memo.new capacity pos : Memo κ ν) := List.take_nil.symm

/-- After a clear no key counts as looked up. -/
lemma Recency.clear (m : Memo κ ν) : Recency m.clear := List.take_nil.symm

/-- The keys of a table without one of them. -/
lemma map_fst_without (table : List (κ × Nat)) (key : κ) :
    (without table key).map Prod.fst = (table.map Prod.fst).filter (· ≠ key) := by
  rw [without, List.filter_map]
  rfl

/-- Nothing is taken out of a list for a key that is not in it. -/
lemma filter_ne_of_not_mem {l : List κ} (h : key ∉ l) : l.filter (· ≠ key) = l :=
  List.filter_eq_self.2 fun _ hk => decide_eq_true fun e => h (e ▸ hk)

/-- Only one place is freed by a key. -/
lemma take_filter_take {l : List κ} (h : l.Nodup) (key : κ) (n : Nat) :
    ((l.take (n + 1)).filter (· ≠ key)).take n = (l.filter (· ≠ key)).take n := by
  induction l generalizing n with
  | nil => rfl
  | cons k l ih =>
    obtain ⟨hk, h⟩ := List.nodup_cons.1 h
    cases n with
    | zero => rw [List.take_zero, List.take_zero]
    | succ n =>
      rw [List.take_succ_cons]
      by_cases e : k = key
      · subst e
        have shorter : k ∉ l.take (n + 1) := fun hm => hk (List.mem_of_mem_take hm)
        rw [List.filter_cons_of_neg (by simp), List.filter_cons_of_neg (by simp),
          filter_ne_of_not_mem hk, filter_ne_of_not_mem shorter, List.take_take, Nat.min_self]
      · rw [List.filter_cons_of_pos (by simpa using e), List.filter_cons_of_pos (by simpa using e),
          List.take_succ_cons, List.take_succ_cons, ih h]

/-- The key of a lookup comes to the front, and the last key drops out when there is no more room.
-/
lemma Recency.promote (h : Recency m) (key : κ) (cell : Nat) :
    Recency ((m.log (.lookup key)).promote key cell) := by
  show (((key, cell) :: without m.recent key).take m.capacity).map Prod.fst =
    (key :: (latest m.journal).filter (· ≠ key)).take m.capacity
  obtain ⟨n, hn⟩ := Nat.exists_eq_add_one_of_ne_zero (Nat.ne_of_gt m.capacity_pos)
  rw [Recency, hn] at h
  rw [List.map_take, List.map_cons, map_fst_without, h, hn, List.take_succ_cons,
    List.take_succ_cons, take_filter_take (nodup_latest _)]

/-- Each lookup keeps the order of last lookups. -/
lemma Recency.lookup (h : Recency m) (key : κ) : Recency (m.lookup key).2 := by
  obtain ⟨cell, _, e⟩ | ⟨cell, _, _, e⟩ | ⟨_, _, e⟩ := m.lookup_cases key
  · rw [e]
    exact h.promote key cell
  · rw [e]
    exact h.promote key cell
  · rw [e]
    exact h.promote key m.cells.length

/-- Only lookups and clears change the order of the keys. -/
lemma Recency.of_log {m' : Memo κ ν} {e : Event κ ν} (h : Recency m)
    (hj : m'.journal = e :: m.journal)
    (hl : ∀ k, e ≠ .lookup k) (hc : e ≠ .clear) (hcap : m'.capacity = m.capacity)
    (hr : m'.recent = m.recent) : Recency m' := by
  have same : latest (e :: m.journal) = latest m.journal := by
    cases e with
    | lookup k => exact absurd rfl (hl k)
    | clear => exact absurd rfl hc
    | _ => rfl
  rw [Recency, hr, hj, same, hcap]
  exact h

/-- The keys of a table are those that have a cell in it. -/
lemma mem_map_fst_iff {table : List (κ × Nat)} :
    key ∈ table.map Prod.fst ↔ ∃ cell, cellOf? table key = some cell := by
  constructor
  · intro h
    cases hc : cellOf? table key with
    | some cell => exact ⟨cell, rfl⟩
    | none =>
      obtain ⟨e, he, rfl⟩ := List.mem_map.1 h
      exact absurd (List.lookup_eq_none_iff.1 hc e he) (by simp)
  · rintro ⟨cell, hc⟩
    exact List.mem_map.2 ⟨_, mem_of_cellOf? hc, rfl⟩

/-- A key is found among the recently used ones when it was looked up, nothing was cleared since,
and fewer other keys were looked up since than there is room for. -/
theorem Recency.cellOf?_iff (h : Recency m) : (∃ cell, cellOf? m.recent key = some cell) ↔
    ∃ since before, m.journal = since ++ .lookup key :: before ∧ .lookup key ∉ since ∧
      .clear ∉ since ∧ (lookedUp since).dedup.length < m.capacity := by
  rw [← mem_map_fst_iff, h, mem_take_latest_iff]

end Memo

end RuleFormula
