import RuleFormula.Memo.Computation
import RuleFormula.Proofs.Memo.History
import RuleFormula.Proofs.Memo.Recency

/-!
# What a call finds

`Runs` are the things that a caller can do who is alone, with computations that call and clear in
their turn, and `Reached` are the memos at any moment of this, with the keys that are being
computed. A call then gives the value that the last call of its key returned, if it returned one,
nothing was cleared since, and fewer other keys were looked up since than there is room for; in all
other cases it runs its computation, once (`Reached.call_law`).

What is in a memo agrees with its journal, but for the keys that are being computed (`Consistent`).
While a key is being computed, nothing that happens is about it: its cell stays empty, and at most
the key is pushed out of the recently used ones (`Underway`). So the event with which the
computation ends makes the memo agree with the journal on this key as well.
-/

namespace RuleFormula

/-- A computation does not call for keys that are being computed, and what it gives as the way to
compute another key does not either. -/
def Computation.Avoids {κ ν ε : Type} : Computation κ ν ε → List κ → Prop
  | done _, _ => True
  | abort _, _ => True
  | clear next, busy | await _ _ next, busy => next.Avoids busy
  | get key body next, busy =>
    key ∉ busy ∧ (body ()).Avoids (key :: busy) ∧ ∀ outcome, (next outcome).Avoids busy

namespace Memo

variable {κ ν ε : Type} [DecidableEq κ] {m m' m'' : Memo κ ν} {key k : κ} {cell c : Nat}
  {s : Shared ν} {e : Event κ ν} {since before : List (Event κ ν)} {busy owners : List κ}
  {body : Memo κ ν → Outcome ε ν × Memo κ ν}

/-! ## What the journal tells of a memo -/

/-- A recently used key has a value exactly where its last call returned it. -/
def Known (m : Memo κ ν) (key : κ) : Prop :=
  ∀ c, cellOf? m.recent key = some c → ∀ s : Shared ν,
    LastReturned m.journal key s ↔ s.cell = c ∧ m.value? c = some s.value

/-- What is known of the last call of a key stays known while the key is not called. -/
lemma Known.of_untouched (h : Known m key) (ho : Owned owners m)
    (hu : Untouched owners key m m') : Known m' key := by
  intro c hc s
  have hc' := hu.recent c hc
  obtain ⟨since, e, hs⟩ := hu.journal
  rw [e, lastReturned_append hs, h c hc' s, hu.value?_eq c (ho.recent _ (mem_of_cellOf? hc'))]

/-- What is in a memo agrees with its journal, but for the keys that are being computed. -/
structure Consistent (owners busy : List κ) (m : Memo κ ν) : Prop extends Owned owners m where
  recency : Recency m
  pending_empty : ∀ e ∈ m.pending, m.value? e.2 = none
  value_of_produced {key : κ} {c : Nat} {v : ν} :
    .produced key c v ∈ m.journal → m.value? c = some v
  known : ∀ key ∉ busy, Known m key

/-- A new memo is consistent: no key has been called. -/
lemma Consistent.new (capacity : Nat) (pos : 0 < capacity) :
    Consistent [] [] (Memo.new capacity pos : Memo κ ν) where
  toOwned := .new capacity pos
  recency := .new capacity pos
  pending_empty _ he := absurd he List.not_mem_nil
  value_of_produced he := absurd he List.not_mem_nil
  known _ _ _ hc := nomatch hc

/-- A clear keeps a memo consistent. -/
lemma Consistent.clear (h : Consistent owners busy m) : Consistent owners busy m.clear where
  toOwned := h.toOwned.clear
  recency := .clear m
  pending_empty := h.pending_empty
  value_of_produced he := h.value_of_produced ((List.mem_cons.1 he).resolve_left nofun)
  known _ _ _ hc := nomatch hc

/-- What others work on changes nothing for calls. -/
lemma Consistent.work (h : Consistent owners busy m) (k : κ) (parts : List Nat) :
    Consistent owners busy (m.log (.worked k parts)) where
  toOwned := h.toOwned.log _
  recency := h.recency.of_log rfl nofun nofun rfl rfl
  pending_empty := h.pending_empty
  value_of_produced he := h.value_of_produced ((List.mem_cons.1 he).resolve_left nofun)
  known key hk := (h.known key hk).of_untouched h.toOwned
    (untouched_of_log owners rfl rfl (fun _ => rfl) nofun)

/-- While a key is looked up it is as good as being computed. -/
lemma Consistent.lookup (h : Consistent owners busy m) (key : κ) :
    ∃ more, Consistent (owners ++ more) (key :: busy) (m.lookup key).2 ∧
      (owners ++ more)[(m.lookup key).1]? = some key := by
  obtain ⟨more, ho, hc⟩ := h.toOwned.lookup key
  refine ⟨more, ⟨ho, h.recency.lookup key, fun e he => ?_, fun he => ?_, fun k hk => ?_⟩, hc⟩
  · rw [value?_lookup]
    obtain ⟨hp, _⟩ | ⟨_, _, hp, _⟩ := m.pending_lookup key
    · exact h.pending_empty e (hp ▸ he)
    · rw [hp] at he
      obtain rfl | he := List.mem_cons.1 he
      · rw [Memo.value?, List.getElem?_eq_none (Nat.le_refl _)]
        rfl
      · exact h.pending_empty e he
  · rw [value?_lookup]
    rw [journal_lookup] at he
    exact h.value_of_produced ((List.mem_cons.1 he).resolve_left nofun)
  · obtain ⟨ne, hk⟩ := List.ne_and_not_mem_of_not_mem_cons hk
    exact (h.known k hk).of_untouched h.toOwned (untouched_lookup owners ne m)

/-! ## Calls -/

/-- A value is found by way of the recently used keys only. -/
lemma Consistent.recent_of_value? {v : ν} (h : Consistent owners busy m)
    (hv : m.value? (m.lookup key).1 = some v) : cellOf? m.recent key = some (m.lookup key).1 := by
  obtain ⟨cell, hr, e⟩ | ⟨cell, _, hp, e⟩ | ⟨_, _, e⟩ := m.lookup_cases key
  · rw [e]
    exact hr
  · rw [e, h.pending_empty _ (mem_of_cellOf? hp)] at hv
    cases hv
  · rw [e] at hv
    exact absurd (lt_length_of_value? hv) (Nat.lt_irrefl _)

/-- A cell that is found with a value was brought to it by a computation of its key. -/
lemma Consistent.produced_iff {v : ν} (h : Consistent owners busy m) (hk : key ∉ busy)
    (hr : cellOf? m.recent key = some c) :
    .produced key c v ∈ m.journal ↔ m.value? c = some v := by
  refine ⟨h.value_of_produced, fun hv => ?_⟩
  obtain ⟨since, before, call, returned⟩ := (h.known key hk c hr ⟨c, v⟩).2 ⟨rfl, hv⟩
  rw [call.journal_eq]
  obtain hm | ⟨_, hm⟩ := returned
  · exact List.mem_append_left _ hm
  · exact List.mem_append_right _ (List.mem_cons_of_mem _ hm)

/-- After a call that found a value, the journal says that the call returned it. -/
lemma Consistent.lastReturned_hit (h : Consistent owners busy m) (hk : key ∉ busy)
    (hr : cellOf? m.recent key = some c) :
    LastReturned (.hit key c :: .lookup key :: m.journal) key s ↔
      s.cell = c ∧ m.value? c = some s.value := by
  have call : LastCall (.hit key c :: .lookup key :: m.journal) key [.hit key c] m.journal :=
    ⟨rfl, nofun⟩
  rw [call.lastReturned_iff, ← h.produced_iff hk hr]
  constructor
  · rintro (hm | ⟨hm, produced⟩)
    · cases List.mem_singleton.1 hm
    · obtain ⟨_, e⟩ := Event.hit.inj (List.mem_singleton.1 hm)
      exact ⟨e, e ▸ produced⟩
  · rintro ⟨rfl, produced⟩
    exact .inr ⟨List.mem_singleton_self _, produced⟩

/-- A call that finds a value. -/
lemma Consistent.hit {v : ν} (h : Consistent owners busy m) (hk : key ∉ busy)
    (hv : m.value? (m.lookup key).1 = some v) :
    ∃ more, Consistent (owners ++ more) busy ((m.lookup key).2.hit key (m.lookup key).1) ∧
      ∀ k ∈ busy, Untouched owners k m ((m.lookup key).2.hit key (m.lookup key).1) := by
  obtain ⟨more, hl, hc⟩ := h.lookup key
  have step {k : κ} (ne : k ≠ key) : Untouched (owners ++ more) k (m.lookup key).2
      ((m.lookup key).2.hit key (m.lookup key).1) :=
    untouched_of_log _ rfl rfl (fun _ => rfl) fun e => ne (Option.some.inj e).symm
  refine ⟨more, ⟨hl.toOwned.hit key _, hl.recency, hl.pending_empty, fun he => ?_, fun k hkb => ?_⟩,
    fun k hkb => ?_⟩
  · exact hl.value_of_produced ((List.mem_cons.1 he).resolve_left nofun)
  · by_cases e : k = key
    · subst e
      intro c hr s
      obtain rfl : (m.lookup k).1 = c :=
        Option.some.inj ((cellOf?_recent_lookup m k).symm.trans hr)
      show LastReturned (.hit k (m.lookup k).1 :: (m.lookup k).2.journal) k s ↔
        s.cell = (m.lookup k).1 ∧ (m.lookup k).2.value? (m.lookup k).1 = some s.value
      rw [journal_lookup, value?_lookup, h.lastReturned_hit hk (h.recent_of_value? hv)]
    · exact (hl.known k (List.not_mem_cons_of_ne_of_not_mem e hkb)).of_untouched hl.toOwned (step e)
  · have ne : k ≠ key := fun e => hk (e ▸ hkb)
    exact (untouched_lookup owners ne m).trans (step ne)

/-- The start of a computation. -/
lemma Consistent.started (h : Consistent owners busy m) (key : κ) :
    ∃ more, Consistent (owners ++ more) (key :: busy) (m.started key) ∧
      (owners ++ more)[(m.lookup key).1]? = some key ∧
      ∀ k ≠ key, Untouched owners k m (m.started key) := by
  obtain ⟨more, hl, hc⟩ := h.lookup key
  have step {k : κ} (ne : k ≠ key) : Untouched (owners ++ more) k (m.lookup key).2
      (m.started key) :=
    untouched_of_log _ rfl rfl (fun _ => rfl) fun e => ne (Option.some.inj e).symm
  refine ⟨more, ⟨hl.toOwned.start key _, hl.recency, hl.pending_empty, fun he => ?_,
    fun k hkb => ?_⟩, hc, fun k ne => (untouched_lookup owners ne m).trans (step ne)⟩
  · exact hl.value_of_produced ((List.mem_cons.1 he).resolve_left nofun)
  · have ne := (List.ne_and_not_mem_of_not_mem_cons hkb).1
    exact (hl.known k hkb).of_untouched hl.toOwned (step ne)

/-- A key is being computed: its cell is empty, and its last call has not returned. -/
structure Underway (key : κ) (cell : Nat) (m : Memo κ ν) : Prop where
  empty : m.value? cell = none
  recent : ∀ c, cellOf? m.recent key = some c → c = cell
  call : ∃ since before, LastCall m.journal key since before ∧ ∀ s, ¬ Returned key since before s

/-- What does not touch a key leaves its computation under way. -/
lemma Misses.underway (h : Misses m key) (hc : owners[(m.lookup key).1]? = some key)
    (hu : Untouched owners key (m.started key) m') : Underway key (m.lookup key).1 m' where
  empty := (hu.value?_eq _ hc).trans ((value?_lookup m key _).trans h)
  recent c hr :=
    (Option.some.inj ((cellOf?_recent_lookup m key).symm.trans (hu.recent c hr))).symm
  call := by
    obtain ⟨since, e, hs⟩ := hu.journal
    have none (e : Event κ ν) (he : e.key? = some key) (ne : e ≠ .start key (m.lookup key).1) :
        e ∉ since ++ [.start key (m.lookup key).1] := by
      intro hm
      obtain hm | hm := List.mem_append.1 hm
      · exact hs _ hm he
      · exact ne (List.mem_singleton.1 hm)
    refine ⟨since ++ [.start key (m.lookup key).1], m.journal, ⟨?_, none (.lookup key) rfl nofun⟩,
      fun s => ?_⟩
    · rw [e, journal_started, List.append_assoc]
      rfl
    · rintro (hm | ⟨hm, _⟩)
      · exact none (.produced key s.cell s.value) rfl nofun hm
      · exact none (.hit key s.cell) rfl nofun hm

/-- The event with which a computation ends says what its call returned. -/
lemma Underway.lastReturned_iff (h : Underway key cell m) (hl : e ≠ .lookup key)
    (hh : ∀ c, e ≠ .hit key c) :
    LastReturned (e :: m.journal) key s ↔ e = .produced key s.cell s.value := by
  obtain ⟨since, before, ⟨journal, last⟩, returned⟩ := h.call
  have call : LastCall (e :: m.journal) key (e :: since) before :=
    ⟨congrArg _ journal, List.not_mem_cons_of_ne_of_not_mem hl.symm last⟩
  rw [call.lastReturned_iff]
  constructor
  · rintro (hm | ⟨hm, produced⟩)
    · obtain hm | hm := List.mem_cons.1 hm
      · exact hm.symm
      · exact absurd (.inl hm) (returned s)
    · obtain hm | hm := List.mem_cons.1 hm
      · exact absurd hm.symm (hh _)
      · exact absurd (.inr ⟨hm, produced⟩) (returned s)
  · rintro rfl
    exact .inl List.mem_cons_self

/-- The value that an outcome brings. -/
def brought : Outcome ε ν → Option ν
  | .returned (.ok v) => some v
  | _ => none

/-- What the end of a computation does to a memo: it fills the cell of the key with the value that
it brings, and writes down how it ended. -/
structure Ended (owners : List κ) (key : κ) (cell : Nat) (v? : Option ν) (m m' : Memo κ ν) :
    Prop where
  owned : Owned owners m'
  capacity_eq : m'.capacity = m.capacity
  recent_eq : m'.recent = m.recent
  pending : ∀ p ∈ m'.pending, p ∈ m.pending ∧ (v?.isSome → p.1 ≠ key)
  value?_eq : ∀ c, m'.value? c = if cell = c then v? else m.value? c
  journal : ∃ e, m'.journal = e :: m.journal ∧ e.key? = some key ∧ e ≠ .lookup key ∧
    (∀ c, e ≠ .hit key c) ∧
    ∀ s : Shared ν, e = .produced key s.cell s.value ↔ s.cell = cell ∧ v? = some s.value

/-- A call ends as `Ended` says, whichever way its computation ends. -/
lemma ended_conclude (ho : Owned owners m) (hc : owners[cell]? = some key)
    (empty : m.value? cell = none) (outcome : Outcome ε ν) :
    Ended owners key cell (brought outcome) m (conclude key cell (outcome, m)).2 := by
  have unchanged (c : Nat) : m.value? c = if cell = c then none else m.value? c := by
    split
    next e => rw [← e, empty]
    next => rfl
  cases outcome with
  | aborted fault =>
    refine ⟨ho.log _, rfl, rfl, fun p hp => ⟨hp, nofun⟩, unchanged, ?_⟩
    exact ⟨.aborted key cell, rfl, rfl, nofun, nofun, fun s => ⟨nofun, nofun⟩⟩
  | returned result =>
    cases result with
    | error x =>
      refine ⟨(ho.log _).settle key, rfl, rfl, fun p hp => ⟨mem_of_mem_without hp, nofun⟩,
        unchanged, ?_⟩
      exact ⟨.failed key cell, rfl, rfl, nofun, nofun, fun s => ⟨nofun, nofun⟩⟩
    | ok v =>
      have bound : cell < m.cells.length := by
        obtain ⟨hlt, _⟩ := List.getElem?_eq_some_iff.1 hc
        exact ho.length_eq ▸ hlt
      refine ⟨((ho.log _).settle key).fill cell (.ok v : Except ε ν), rfl, rfl,
        fun p hp => ⟨mem_of_mem_without hp, fun _ => ?_⟩, fun c => ?_, ?_⟩
      · simpa using (List.mem_filter.1 hp).2
      · refine (value?_fill_ok (ε := ε) _ cell v c).trans ?_
        by_cases e : cell = c
        · subst e
          rw [if_pos ⟨rfl, bound⟩, if_pos rfl]
          rfl
        · rw [if_neg (fun h => e h.1), if_neg e]
          rfl
      · refine ⟨.produced key cell v, rfl, rfl, nofun, nofun, fun s => ?_⟩
        constructor
        · intro e
          obtain ⟨_, rfl, rfl⟩ := Event.produced.inj e
          exact ⟨rfl, rfl⟩
        · rintro ⟨rfl, e⟩
          cases e
          rfl

/-- A call that computes returns a value exactly when its computation brought it. -/
lemma conclude_eq_ok_iff (outcome : Outcome ε ν) :
    (conclude key cell (outcome, m)).1 = .returned (.ok s) ↔
      s.cell = cell ∧ brought outcome = some s.value := by
  obtain ⟨c, w⟩ := s
  cases outcome with
  | aborted fault => exact ⟨nofun, nofun⟩
  | returned result =>
    cases result with
    | error x => exact ⟨nofun, nofun⟩
    | ok v =>
      constructor
      · intro e
        cases e
        exact ⟨rfl, rfl⟩
      · rintro ⟨rfl, e⟩
        cases e
        rfl

/-- The end of a call touches no other key. -/
lemma Ended.untouched {v? : Option ν} (h : Ended owners key cell v? m m')
    (hc : owners[cell]? = some key) (ne : k ≠ key) : Untouched owners k m m' where
  journal := by
    obtain ⟨e, hj, hk, _⟩ := h.journal
    refine ⟨[e], hj, List.forall_mem_singleton.2 fun hk' => ?_⟩
    exact ne (Option.some.inj (hk'.symm.trans hk))
  recent _ hr := h.recent_eq ▸ hr
  value?_eq c hk := by
    have other : cell ≠ c := by
      rintro rfl
      exact ne (Option.some.inj (hk.symm.trans hc))
    rw [h.value?_eq, if_neg other]

/-- What a call that has ended returned is what was last returned for its key. -/
lemma Ended.lastReturned_iff {v? : Option ν} (h : Ended owners key cell v? m m')
    (hu : Underway key cell m) :
    LastReturned m'.journal key s ↔ s.cell = cell ∧ v? = some s.value := by
  obtain ⟨e, hj, _, hl, hh, produced⟩ := h.journal
  rw [hj, hu.lastReturned_iff hl hh, produced]

/-- After a computation the memo agrees with its journal on the key as well. -/
lemma Consistent.ended {v? : Option ν} (h : Consistent owners (key :: busy) m)
    (he : Ended owners key cell v? m m') (hc : owners[cell]? = some key)
    (hu : Underway key cell m) : Consistent owners busy m' where
  toOwned := he.owned
  recency := by
    obtain ⟨e, hj, hk, hl, _⟩ := he.journal
    refine h.recency.of_log hj (fun k e' => ?_) (fun e' => ?_) he.capacity_eq he.recent_eq
    · subst e'
      cases hk
      exact hl rfl
    · subst e'
      cases hk
  pending_empty p hp := by
    obtain ⟨hm, other⟩ := he.pending p hp
    rw [he.value?_eq]
    split
    next e =>
      cases v? with
      | none => rfl
      | some v =>
        have owner := h.pending p hm
        rw [← e] at owner
        exact absurd (Option.some.inj (owner.symm.trans hc)) (other rfl)
    next => exact h.pending_empty p hm
  value_of_produced {k c v} hm := by
    obtain ⟨e, hj, hk, _, _, produced⟩ := he.journal
    rw [hj] at hm
    rw [he.value?_eq]
    obtain rfl | hm := List.mem_cons.1 hm
    · cases hk
      obtain ⟨rfl, e⟩ := (produced ⟨c, v⟩).1 rfl
      rw [if_pos rfl, e]
    · have old := h.value_of_produced hm
      have other : cell ≠ c := by
        rintro rfl
        rw [hu.empty] at old
        cases old
      rw [if_neg other, old]
  known k hk := by
    by_cases e : k = key
    · subst e
      intro c hr s
      obtain rfl := hu.recent c (he.recent_eq ▸ hr)
      rw [he.lastReturned_iff hu, he.value?_eq, if_pos rfl]
    · exact (h.known k (List.not_mem_cons_of_ne_of_not_mem e hk)).of_untouched h.toOwned
        (he.untouched hc e)

/-! ## What a caller that is alone can do -/

/-- Calls and clears, and the work of others, while some keys are being computed. What a computation
ends with may depend on the memo in any way, but what it does to the memo is to call and clear as
well, and not to call for a key that is being computed. -/
inductive Runs : List κ → Memo κ ν → Memo κ ν → Prop
  | done {busy : List κ} (m : Memo κ ν) : Runs busy m m
  | clear {busy : List κ} {m m' : Memo κ ν} : Runs busy m.clear m' → Runs busy m m'
  | work {busy : List κ} {m m' : Memo κ ν} (key : κ) (parts : List Nat) :
    Runs busy (m.log (.worked key parts)) m' → Runs busy m m'
  | get {busy : List κ} {m m' : Memo κ ν} {ε : Type} {key : κ}
    {body : Memo κ ν → Outcome ε ν × Memo κ ν} : key ∉ busy →
    (Misses m key → Runs (key :: busy) (m.started key) (body (m.started key)).2) →
    Runs busy (m.getWith key body).2 m' → Runs busy m m'

/-- The memos of a capacity at each moment, with the keys that are being computed. -/
inductive Reached (capacity : Nat) : List κ → Memo κ ν → Prop
  | outside {m : Memo κ ν} (pos : 0 < capacity) :
    Runs [] (.new capacity pos) m → Reached capacity [] m
  | inside {busy : List κ} {m m' : Memo κ ν} {key : κ} : Reached capacity busy m → key ∉ busy →
    Misses m key → Runs (key :: busy) (m.started key) m' → Reached capacity (key :: busy) m'

/-- Operations may follow operations. -/
lemma Runs.trans (h : Runs busy m m') (h' : Runs busy m' m'') : Runs busy m m'' := by
  induction h with
  | done m => exact h'
  | clear _ ih => exact .clear (ih h')
  | work key parts _ ih => exact .work key parts (ih h')
  | get hk hbody _ _ ih => exact .get hk hbody (ih h')

/-- The calls of a computation are no others than `Runs` allows. -/
lemma runs_of_avoids {c : Computation κ ν ε} (h : c.Avoids busy)
    (hn : Runs busy (c.run m).2 m') : Runs busy m m' := by
  induction c generalizing busy m m' with
  | done result => exact hn
  | abort fault => exact hn
  | clear next ih => exact .clear (ih h hn)
  | await key parts next ih => exact .work key parts (ih h hn)
  | get key body next ihbody ihnext =>
    obtain ⟨hk, hbody, hnext⟩ := h
    exact .get hk (fun _ => ihbody () hbody (.done _)) (ihnext _ (hnext _) hn)

/-- What is done to a memo keeps it consistent, and does not touch the keys that are being
computed. -/
def Respects (busy : List κ) (m m' : Memo κ ν) : Prop :=
  ∀ owners, Consistent owners busy m →
    ∃ more, Consistent (owners ++ more) busy m' ∧ ∀ key ∈ busy, Untouched owners key m m'

/-- What two runs keep, they keep one after the other. -/
lemma Respects.trans (h : Respects busy m m') (h' : Respects busy m' m'') :
    Respects busy m m'' := by
  intro owners hm
  obtain ⟨more, hm', untouched⟩ := h owners hm
  obtain ⟨more', hm'', untouched'⟩ := h' _ hm'
  refine ⟨more ++ more', List.append_assoc _ _ _ ▸ hm'', fun key hk => ?_⟩
  exact (untouched key hk).trans (untouched' key hk)

/-- A call whose computation respects the keys that are being computed, its own among them, respects
them too, and the journal says what it returned. -/
lemma Consistent.getWith (h : Consistent owners busy m) (hk : key ∉ busy)
    (hbody : Misses m key → Respects (key :: busy) (m.started key) (body (m.started key)).2) :
    ∃ more, Consistent (owners ++ more) busy (m.getWith key body).2 ∧
      (∀ k ∈ busy, Untouched owners k m (m.getWith key body).2) ∧
      ∀ s, (m.getWith key body).1 = .returned (.ok s) ↔
        LastReturned (m.getWith key body).2.journal key s := by
  cases hv : m.value? (m.lookup key).1 with
  | some v =>
    have hr := h.recent_of_value? hv
    obtain ⟨more, hm, untouched⟩ := h.hit hk hv
    rw [getWith_of_value? hv]
    refine ⟨more, hm, untouched, fun s => ?_⟩
    show _ ↔ LastReturned (.hit key (m.lookup key).1 :: (m.lookup key).2.journal) key s
    rw [journal_lookup, h.lastReturned_hit hk hr, hv]
    constructor
    · intro e
      cases e
      exact ⟨rfl, rfl⟩
    · rintro ⟨e, e'⟩
      cases e'
      rw [← e]
  | none =>
    have misses : Misses m key := hv
    obtain ⟨more, hs, hc, untouched⟩ := h.started key
    obtain ⟨more', hb, untouched'⟩ := hbody misses _ hs
    rw [misses.getWith_eq]
    have underway := misses.underway hc (untouched' key List.mem_cons_self)
    have hc' := getElem?_append_some hc more'
    generalize body (m.started key) = ended at hb untouched' underway
    obtain ⟨outcome, m'⟩ := ended
    have ended := ended_conclude hb.toOwned hc' underway.empty outcome
    refine ⟨more ++ more', ?_, fun k hkb => ?_, fun s => ?_⟩
    · rw [← List.append_assoc]
      exact hb.ended ended hc' underway
    · have ne : k ≠ key := fun e => hk (e ▸ hkb)
      exact ((untouched k ne).trans (untouched' k (List.mem_cons_of_mem key hkb))).trans
        (List.append_assoc owners more more' ▸ ended.untouched hc' ne)
    · rw [conclude_eq_ok_iff, ended.lastReturned_iff underway]

/-- Whatever a caller that is alone does respects the keys that are being computed. -/
lemma Runs.respects (h : Runs busy m m') : Respects busy m m' := by
  induction h with
  | done m =>
    intro owners hm
    exact ⟨[], (List.append_nil owners).symm ▸ hm, fun key _ => .refl owners key m⟩
  | clear _ ih =>
    refine Respects.trans (fun owners hm => ⟨[], ?_, fun key _ => ?_⟩) ih
    · exact (List.append_nil owners).symm ▸ hm.clear
    · exact untouched_clear owners key _
  | work k parts _ ih =>
    refine Respects.trans (fun owners hm => ⟨[], ?_, fun key _ => ?_⟩) ih
    · exact (List.append_nil owners).symm ▸ hm.work k parts
    · exact untouched_of_log owners rfl rfl (fun _ => rfl) nofun
  | get hk _ _ ihbody ih =>
    refine Respects.trans (fun owners hm => ?_) ih
    obtain ⟨more, hm', untouched, _⟩ := hm.getWith hk ihbody
    exact ⟨more, hm', untouched⟩

/-- The end of a call does not change the capacity. -/
lemma capacity_conclude (key : κ) (cell : Nat) (ended : Outcome ε ν × Memo κ ν) :
    (conclude key cell ended).2.capacity = ended.2.capacity := by
  obtain ⟨outcome, m⟩ := ended
  cases outcome with
  | aborted fault => rfl
  | returned result => cases result <;> rfl

/-- No operation changes the capacity. -/
lemma Runs.capacity_eq (h : Runs busy m m') : m'.capacity = m.capacity := by
  induction h with
  | done m => rfl
  | clear _ ih => exact ih
  | work _ _ _ ih => exact ih
  | @get _ m m' _ key body _ _ _ ihbody ih =>
    rw [ih]
    cases hv : m.value? (m.lookup key).1 with
    | some v =>
      rw [getWith_of_value? hv]
      exact capacity_lookup m key
    | none =>
      rw [Misses.getWith_eq hv, capacity_conclude, ihbody hv]
      exact capacity_lookup m key

/-- The capacity is the one that the memo was made with. -/
lemma Reached.capacity_eq {capacity : Nat} (h : Reached capacity busy m) :
    m.capacity = capacity := by
  induction h with
  | outside _ h => exact h.capacity_eq
  | @inside _ m _ key _ _ _ h ih =>
    rw [h.capacity_eq, ← ih]
    exact capacity_lookup m key

/-- Every memo that is reached is consistent. -/
lemma Reached.consistent {capacity : Nat} (h : Reached capacity busy m) :
    ∃ owners, Consistent owners busy m := by
  induction h with
  | outside pos h =>
    obtain ⟨more, hm, _⟩ := h.respects [] (.new capacity pos)
    exact ⟨_, hm⟩
  | @inside _ _ _ key _ _ _ h ih =>
    obtain ⟨owners, hm⟩ := ih
    obtain ⟨more, hs, _⟩ := hm.started key
    obtain ⟨more', hm', _⟩ := h.respects _ hs
    exact ⟨_, hm'⟩

/-! ## The law of calls -/

/-- What the last call of a key returned is still there for the next one: nothing was cleared since
its lookup, and fewer other keys were looked up since than there is room for. -/
def Kept (capacity : Nat) (journal : List (Event κ ν)) (key : κ) (s : Shared ν) : Prop :=
  ∃ since before, LastCall journal key since before ∧ Returned key since before s ∧
    .clear ∉ since ∧ (lookedUp since).dedup.length < capacity

/-- A call gives a value and runs no computation: it ends in the same way for all of them, and is
noted as a hit. -/
def Finds (m : Memo κ ν) (key : κ) (s : Shared ν) : Prop :=
  ∃ m' : Memo κ ν, m'.journal = .hit key s.cell :: .lookup key :: m.journal ∧
    ∀ (ε : Type) (body : Memo κ ν → Outcome ε ν × Memo κ ν),
      m.getWith key body = (.returned (.ok s), m')

/-- A call runs its computation once, after its lookup, and ends as the computation does. -/
def Computes (m : Memo κ ν) (key : κ) : Prop :=
  ∃ (cell : Nat) (m' : Memo κ ν), m'.journal = .start key cell :: .lookup key :: m.journal ∧
    ∀ (ε : Type) (body : Memo κ ν → Outcome ε ν × Memo κ ν),
      m.getWith key body = conclude key cell (body m')

/-- A call that misses runs its computation, once. -/
lemma Misses.computes (h : Misses m key) : Computes m key :=
  ⟨(m.lookup key).1, m.started key, m.journal_started key, fun _ body => h.getWith_eq body⟩

/-- A call whose cell is filled finds the value. -/
lemma finds_of_value? {v : ν} (h : m.value? (m.lookup key).1 = some v) :
    Finds m key ⟨(m.lookup key).1, v⟩ := by
  refine ⟨_, ?_, fun _ body => getWith_of_value? h body⟩
  rw [← journal_lookup]
  rfl

/-- Only a value in the cell of the key is found: a computation may end by a fault. -/
lemma Finds.value?_eq (h : Finds m key s) :
    (m.lookup key).1 = s.cell ∧ m.value? (m.lookup key).1 = some s.value := by
  obtain ⟨m', _, h⟩ := h
  have ends := h Unit fun m => (.aborted .undefinedTested, m)
  cases hv : m.value? (m.lookup key).1 with
  | none =>
    rw [Misses.getWith_eq hv] at ends
    cases ends
  | some v =>
    rw [getWith_of_value? hv] at ends
    cases ends
    exact ⟨rfl, rfl⟩

/-- A value is kept when the key is among the recently used ones and its last call returned it. -/
lemma kept_iff (h : Recency m) : Kept m.capacity m.journal key s ↔
    (∃ c, cellOf? m.recent key = some c) ∧ LastReturned m.journal key s := by
  rw [h.cellOf?_iff]
  constructor
  · rintro ⟨since, before, call, returned, hc, hn⟩
    exact ⟨⟨since, before, call.journal_eq, call.last, hc, hn⟩, since, before, call, returned⟩
  · rintro ⟨⟨since, before, e, last, hc, hn⟩, returned⟩
    have call : LastCall m.journal key since before := ⟨e, last⟩
    exact ⟨since, before, call, call.lastReturned_iff.1 returned, hc, hn⟩

/-- A call finds exactly the value that the memo has kept. -/
lemma Consistent.finds_iff (h : Consistent owners busy m) (hk : key ∉ busy) :
    Finds m key s ↔ Kept m.capacity m.journal key s := by
  rw [kept_iff h.recency]
  constructor
  · intro hf
    obtain ⟨e, hv⟩ := hf.value?_eq
    have hr := h.recent_of_value? hv
    exact ⟨⟨_, hr⟩, (h.known key hk _ hr s).2 ⟨e.symm, hv⟩⟩
  · rintro ⟨⟨c, hr⟩, returned⟩
    obtain ⟨e, hv⟩ := (h.known key hk c hr s).1 returned
    have found : (m.lookup key).1 = c := by rw [lookup_of_recent hr]
    have finds := finds_of_value? (found ▸ hv)
    rw [found, ← e] at finds
    exact finds

/-- A call for a key that is not being computed gives the value that the last call of the key
returned, and runs no computation, if and only if that call returned one, nothing was cleared since
its lookup, and fewer other keys were looked up since than there is room for. Otherwise it runs its
computation, once. What a call returns is what the journal then says that it returned. -/
theorem Reached.call_law {capacity : Nat} (h : Reached capacity busy m) (hk : key ∉ busy) :
    (∀ s, Finds m key s ↔ Kept capacity m.journal key s) ∧
    ((¬ ∃ s, Kept capacity m.journal key s) → Computes m key) ∧
    ∀ (ε : Type) (body : Memo κ ν → Outcome ε ν × Memo κ ν),
      (Misses m key → Runs (key :: busy) (m.started key) (body (m.started key)).2) →
      ∀ s, (m.getWith key body).1 = .returned (.ok s) ↔
        LastReturned (m.getWith key body).2.journal key s := by
  obtain ⟨owners, hm⟩ := h.consistent
  rw [← h.capacity_eq]
  refine ⟨fun s => hm.finds_iff hk, fun none => ?_, fun ε body hbody s => ?_⟩
  · cases hv : m.value? (m.lookup key).1 with
    | none => exact Misses.computes hv
    | some v => exact absurd ⟨_, (hm.finds_iff hk).1 (finds_of_value? hv)⟩ none
  · obtain ⟨_, _, _, returned⟩ := hm.getWith hk fun misses => (hbody misses).respects
    exact returned s

/-- With room for two keys, a key is found again after its computation called for another one. -/
theorem finds_after_nested_call :
    Finds ((Memo.new 2 Nat.two_pos : Memo Nat Nat).get 0 fun _ =>
      (.get 1 (fun _ => .done (.ok 5)) fun _ => .done (.ok 7) : Computation Nat Nat Unit)).2
      0 ⟨0, 7⟩ := by
  have reached : Reached 2 [] ((Memo.new 2 Nat.two_pos : Memo Nat Nat).get 0 fun _ =>
      (.get 1 (fun _ => .done (.ok 5)) fun _ => .done (.ok 7) : Computation Nat Nat Unit)).2 := by
    have avoids : (.get 1 (fun _ => .done (.ok 5)) fun _ => .done (.ok 7) :
        Computation Nat Nat Unit).Avoids [0] := ⟨by decide, trivial, fun _ => trivial⟩
    exact .outside Nat.two_pos (.get List.not_mem_nil (fun _ => runs_of_avoids avoids (.done _))
      (.done _))
  exact ((reached.call_law List.not_mem_nil).1 ⟨0, 7⟩).2
    ⟨[.produced 0 0 7, .produced 1 1 5, .start 1 1, .lookup 1, .start 0 0], [], ⟨rfl, by decide⟩,
      .inl List.mem_cons_self, by decide, by decide⟩

end Memo

end RuleFormula
