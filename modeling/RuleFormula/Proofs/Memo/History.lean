import RuleFormula.Proofs.Memo.Owners

/-!
# Calls in the journal

The journal of a memo tells when a key was called last, and what that call returned
(`LastReturned`), if the caller is alone. What happens to other keys changes neither this nor the
values in the cells of the key, and gives the key no other cell (`Untouched`).
-/

namespace RuleFormula

variable {κ ν ε : Type}

/-- The key whose calls an event is about. What others worked on is about no call. -/
def Event.key? : Event κ ν → Option κ
  | lookup key | hit key _ | start key _ | produced key _ _ | failed key _ | aborted key _ =>
    some key
  | clear | worked _ _ => none

namespace Memo

/-! ## Calls in the journal -/

variable {m m' m'' : Memo κ ν} {key k : κ} {cell c : Nat} {s : Shared ν} {e : Event κ ν}
  {journal since before : List (Event κ ν)}

/-- The last call of a key was made after the events `before`, and `since` is what happened since
its lookup. -/
structure LastCall (journal : List (Event κ ν)) (key : κ) (since before : List (Event κ ν)) :
    Prop where
  journal_eq : journal = since ++ .lookup key :: before
  last : .lookup key ∉ since

/-- A call returned a value: it computed the value, or found it in a cell to which an earlier
computation had brought it. -/
def Returned (key : κ) (since before : List (Event κ ν)) (s : Shared ν) : Prop :=
  .produced key s.cell s.value ∈ since ∨
    .hit key s.cell ∈ since ∧ .produced key s.cell s.value ∈ before

/-- The last call of a key returned a value. -/
def LastReturned (journal : List (Event κ ν)) (key : κ) (s : Shared ν) : Prop :=
  ∃ since before, LastCall journal key since before ∧ Returned key since before s

/-- A key has one last call. -/
lemma LastCall.unique {since' before' : List (Event κ ν)} (h : LastCall journal key since before)
    (h' : LastCall journal key since' before') : since = since' ∧ before = before' := by
  have same := h.journal_eq.symm.trans h'.journal_eq
  obtain ⟨as, rfl, tail⟩ | ⟨as, rfl, tail⟩ := List.append_eq_append_iff.1 same
  · cases as with
    | nil => exact ⟨(List.append_nil _).symm, (List.cons.inj tail).2⟩
    | cons a as =>
      obtain ⟨rfl, _⟩ := List.cons.inj tail
      exact absurd (List.mem_append_right since List.mem_cons_self) h'.last
  · cases as with
    | nil => exact ⟨List.append_nil _, (List.cons.inj tail).2.symm⟩
    | cons a as =>
      obtain ⟨rfl, _⟩ := List.cons.inj tail
      exact absurd (List.mem_append_right since' List.mem_cons_self) h.last

/-- What was last returned for a key was returned by its last call. -/
lemma LastCall.lastReturned_iff (h : LastCall journal key since before) :
    LastReturned journal key s ↔ Returned key since before s := by
  refine ⟨fun h' => ?_, fun h' => ⟨since, before, h, h'⟩⟩
  obtain ⟨since', before', h', returned⟩ := h'
  obtain ⟨rfl, rfl⟩ := h.unique h'
  exact returned

/-- Events that are not about a key do not matter to its last call. -/
lemma lastReturned_append (h : ∀ e ∈ since, e.key? ≠ some key) :
    LastReturned (since ++ journal) key s ↔ LastReturned journal key s := by
  have none {e : Event κ ν} (he : e.key? = some key) : e ∉ since := fun hm => h e hm he
  constructor
  · rintro ⟨since', before, ⟨same, last⟩, returned⟩
    obtain ⟨as, rfl, rfl⟩ | ⟨as, rfl, tail⟩ := List.append_eq_append_iff.1 same
    · refine ⟨as, before, ⟨rfl, fun hm => last (List.mem_append_right since hm)⟩, ?_⟩
      refine returned.imp (fun hm => ?_) (fun hm => ⟨?_, hm.2⟩)
      · exact (List.mem_append.1 hm).resolve_left (none rfl)
      · exact (List.mem_append.1 hm.1).resolve_left (none rfl)
    · cases as with
      | nil =>
        rw [List.nil_append] at tail
        refine ⟨[], before, ⟨tail.symm, List.not_mem_nil⟩, ?_⟩
        rw [List.append_nil] at h
        obtain hm | ⟨hm, _⟩ := returned
        · exact absurd rfl (h _ hm)
        · exact absurd rfl (h _ hm)
      | cons a as =>
        obtain ⟨rfl, _⟩ := List.cons.inj tail
        exact absurd (List.mem_append_right since' List.mem_cons_self) (none rfl)
  · rintro ⟨since', before, ⟨rfl, last⟩, returned⟩
    refine ⟨since ++ since', before, ⟨(List.append_assoc _ _ _).symm, fun hm => ?_⟩, ?_⟩
    · obtain hm | hm := List.mem_append.1 hm
      · exact none rfl hm
      · exact last hm
    · exact returned.imp (List.mem_append_right since) (.imp_left (List.mem_append_right since))

/-! ## Steps of a call -/

variable [DecidableEq κ]

/-- A call finds its cell empty. -/
def Misses (m : Memo κ ν) (key : κ) : Prop := m.value? (m.lookup key).1 = none

/-- The memo in which the computation of a key starts. -/
def started (m : Memo κ ν) (key : κ) : Memo κ ν :=
  (m.lookup key).2.start key (m.lookup key).1

/-- How a call ends when its computation has ended. -/
def conclude (key : κ) (cell : Nat) :
    Outcome ε ν × Memo κ ν → Outcome ε (Shared ν) × Memo κ ν
  | (.returned result, m) =>
    (.returned (share cell result), ((m.finish key cell result).settle key).fill cell result)
  | (.aborted fault, m) => (.aborted fault, m.log (.aborted key cell))

variable {busy owners : List κ} {body : Memo κ ν → Outcome ε ν × Memo κ ν}

/-- A call whose cell is filled is a hit, and does not run its computation. -/
lemma getWith_of_value? {v : ν} (h : m.value? (m.lookup key).1 = some v)
    (body : Memo κ ν → Outcome ε ν × Memo κ ν) :
    m.getWith key body =
      (.returned (.ok ⟨(m.lookup key).1, v⟩), (m.lookup key).2.hit key (m.lookup key).1) := by
  rw [← value?_lookup m key] at h
  unfold getWith
  dsimp only
  rw [h]

/-- A call that misses runs its computation on the memo in which it has started. -/
lemma Misses.getWith_eq (h : Misses m key) (body : Memo κ ν → Outcome ε ν × Memo κ ν) :
    m.getWith key body = conclude key (m.lookup key).1 (body (m.started key)) := by
  rw [Misses, ← value?_lookup m key] at h
  unfold getWith started
  dsimp only
  rw [h]
  generalize body ((m.lookup key).2.start key (m.lookup key).1) = ended
  obtain ⟨outcome, m'⟩ := ended
  cases outcome <;> rfl

/-- A lookup does not change the capacity. -/
lemma capacity_lookup (m : Memo κ ν) (key : κ) : (m.lookup key).2.capacity = m.capacity := by
  obtain ⟨cell, _, e⟩ | ⟨cell, _, _, e⟩ | ⟨_, _, e⟩ := m.lookup_cases key
  all_goals
    rw [e]
    rfl

/-- A lookup writes one event. -/
lemma journal_lookup (m : Memo κ ν) (key : κ) :
    (m.lookup key).2.journal = .lookup key :: m.journal := by
  obtain ⟨cell, _, e⟩ | ⟨cell, _, _, e⟩ | ⟨_, _, e⟩ := m.lookup_cases key
  all_goals
    rw [e]
    rfl

/-- A call that starts its computation has written its lookup and its start. -/
lemma journal_started (m : Memo κ ν) (key : κ) :
    (m.started key).journal = [.start key (m.lookup key).1, .lookup key] ++ m.journal := by
  show .start key (m.lookup key).1 :: (m.lookup key).2.journal = _
  rw [journal_lookup]
  rfl

/-- A lookup alone is not counted. -/
lemma counts_lookup (m : Memo κ ν) (key : κ) :
    (m.lookup key).2.hits = m.hits ∧ (m.lookup key).2.misses = m.misses := by
  obtain ⟨_, _, e⟩ | ⟨_, _, _, e⟩ | ⟨_, _, e⟩ := m.lookup_cases key
  all_goals
    rw [e]
    exact ⟨rfl, rfl⟩

/-! ## A key that is left alone -/

/-- Nothing that happens is about a key, and the values in its cells stay. The key may be pushed out
of the recently used ones, but it is not given another cell. -/
structure Untouched (owners : List κ) (key : κ) (m m' : Memo κ ν) : Prop where
  journal : ∃ since, m'.journal = since ++ m.journal ∧ ∀ e ∈ since, e.key? ≠ some key
  recent : ∀ c, cellOf? m'.recent key = some c → cellOf? m.recent key = some c
  value?_eq : ∀ c, owners[c]? = some key → m'.value? c = m.value? c

/-- A memo touches no key while nothing happens. -/
lemma Untouched.refl (owners : List κ) (key : κ) (m : Memo κ ν) : Untouched owners key m m where
  journal := ⟨[], rfl, List.forall_mem_nil _⟩
  recent _ h := h
  value?_eq _ _ := rfl

/-- What is not touched by one run and by the next is not touched by both. -/
lemma Untouched.trans {more : List κ} (h : Untouched owners key m m')
    (h' : Untouched (owners ++ more) key m' m'') : Untouched owners key m m'' where
  journal := by
    obtain ⟨since, e, hs⟩ := h.journal
    obtain ⟨since', e', hs'⟩ := h'.journal
    refine ⟨since' ++ since, ?_, List.forall_mem_append.2 ⟨hs', hs⟩⟩
    rw [e', e, List.append_assoc]
  recent c hc := h.recent c (h'.recent c hc)
  value?_eq c hc := (h'.value?_eq c (getElem?_append_some hc more)).trans (h.value?_eq c hc)

/-- An event of another key, with the tables and values left alone, touches no key. -/
lemma untouched_of_log {m : Memo κ ν} (owners : List κ) (hj : m'.journal = e :: m.journal)
    (hr : m'.recent = m.recent) (hv : ∀ c, m'.value? c = m.value? c) (he : e.key? ≠ some key) :
    Untouched owners key m m' where
  journal := ⟨[e], hj, List.forall_mem_singleton.2 he⟩
  recent _ hc := hr ▸ hc
  value?_eq c _ := hv c

/-- A clear forgets keys without touching them. -/
lemma untouched_clear (owners : List κ) (key : κ) (m : Memo κ ν) :
    Untouched owners key m m.clear where
  journal := ⟨[.clear], rfl, List.forall_mem_singleton.2 nofun⟩
  recent _ h := nomatch h
  value?_eq _ _ := rfl

/-- The front of a table gives no key another cell. -/
lemma cellOf?_take {table : List (κ × Nat)} {n : Nat} (h : cellOf? (table.take n) key = some c) :
    cellOf? table key = some c := by
  rw [← List.take_append_drop n table, cellOf?, List.lookup_append]
  rw [cellOf?] at h
  rw [h]
  rfl

/-- Promoting another key does not give a recent key another cell; it may drop it. -/
lemma cellOf?_recent_promote_of_ne (ne : key ≠ k)
    (h : cellOf? (m.promote k cell).recent key = some c) : cellOf? m.recent key = some c := by
  have shorter : cellOf? ((k, cell) :: without m.recent k) key = some c := cellOf?_take h
  rwa [cellOf?_cons_of_ne ne, cellOf?_without_of_ne ne] at shorter

/-- A lookup of another key touches no key. -/
lemma untouched_lookup (owners : List κ) (ne : key ≠ k) (m : Memo κ ν) :
    Untouched owners key m (m.lookup k).2 where
  journal := by
    refine ⟨[.lookup k], journal_lookup m k, List.forall_mem_singleton.2 fun e => ?_⟩
    exact ne (Option.some.inj e).symm
  recent c hc := by
    obtain ⟨cell, _, e⟩ | ⟨cell, _, _, e⟩ | ⟨_, _, e⟩ := m.lookup_cases k
    all_goals
      rw [e] at hc
      exact cellOf?_recent_promote_of_ne ne hc
  value?_eq c _ := value?_lookup m k c

end Memo

end RuleFormula
