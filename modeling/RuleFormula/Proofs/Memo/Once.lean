import Mathlib.Data.List.Perm.Subperm
import RuleFormula.Proofs.Memo.CallLaw
import RuleFormula.Proofs.Memo.Specified
import RuleFormula.Proofs.Memo.Work

/-!
# Keys that are computed once

Computations may be known to end with values, to clear nothing, to ask only for keys below their
own, and to leave to others the parts of their work that a plan says (`Computation.Yields`). Where
all of them are like that, each key that was looked up has a value or is being computed (`Tidy`).
The value is kept as long as no more keys are looked up than there is room for, so the memo has it
when the key is looked up again, and its computation is not started a second time
(`Orderly.once`).
-/

namespace RuleFormula

variable {κ ν ε : Type} {good : κ → ν → Prop} {below : κ → κ → Prop} {plan : κ → List Nat} {key : κ}

/-- A computation of a key ends with a value that is good for it. -/
def Delivers (good : κ → ν → Prop) (key : κ) (outcome : Outcome ε ν) : Prop :=
  ∃ v, outcome = .returned (.ok v) ∧ good key v

/-- Provided that the keys it asks for have good values, a computation of a key ends with a good
value, after others did the given parts of the work on the key. It asks only for keys below, with
computations that are like this as well and leave to others what is planned, and clears nothing. -/
def Computation.Yields (good : κ → ν → Prop) (below : κ → κ → Prop) (plan : κ → List Nat) :
    Computation κ ν ε → κ → List Nat → Prop
  | done (.ok v), key, parts => good key v ∧ parts = []
  | await k now next, key, parts =>
    k = key ∧ ∃ later, parts = now ++ later ∧ next.Yields good below plan key later
  | get k body next, key, parts => below k key ∧ (body ()).Yields good below plan k (plan k) ∧
    ∀ s : Shared ν, good k s.value →
      (next (.returned (.ok s))).Yields good below plan key parts
  | _, _, _ => False

/-- A computation that yields values meets the specification that each key has a good value. -/
lemma Computation.Yields.meets {c : Computation κ ν ε} {parts : List Nat}
    (h : c.Yields good below plan key parts) : c.Meets (Delivers good) (Delivers good key) := by
  induction c generalizing key parts with
  | done result =>
    cases result with
    | ok v => exact ⟨v, rfl, h.1⟩
    | error e => exact h.elim
  | abort fault => exact h.elim
  | clear next _ => exact h.elim
  | await k now next ih =>
    obtain ⟨_, later, _, hnext⟩ := h
    exact ih hnext
  | get k body next ihbody ihnext =>
    obtain ⟨_, hbody, hnext⟩ := h
    refine ⟨ihbody () hbody, ?_⟩
    rintro outcome ⟨v, e, hv⟩
    obtain ⟨s, rfl, rfl⟩ := Outcome.eq_of_plain_eq_ok e
    exact ihnext _ (hnext s hv)

namespace Memo

variable [DecidableEq κ] {m m' : Memo κ ν} {busy owners : List κ} {owed : List (κ × Nat)}
  {e : Event κ ν} {journal since before : List (Event κ ν)}
  {body : Memo κ ν → Outcome ε ν × Memo κ ν}

/-! ## Room for the keys that were looked up -/

/-- A part of a list has no more different members than the list. -/
lemma length_dedup_le {l l' : List κ} (h : l ⊆ l') : l.dedup.length ≤ l'.dedup.length := by
  have sub : l.dedup ⊆ l'.dedup := fun k hk => List.mem_dedup.2 (h (List.mem_dedup.1 hk))
  exact ((List.nodup_dedup l).subperm sub).length_le

/-- Where nothing was cleared, and no more keys were looked up than there is room for, what the last
call of a key returned is kept. -/
lemma LastReturned.kept {s : Shared ν} {capacity : Nat} (h : LastReturned journal key s)
    (hc : .clear ∉ journal) (room : (lookedUp journal).dedup.length ≤ capacity) :
    Kept capacity journal key s := by
  obtain ⟨since, before, ⟨rfl, last⟩, returned⟩ := h
  refine ⟨since, before, ⟨rfl, last⟩, returned, fun hm => hc (List.mem_append_left _ hm), ?_⟩
  -- the key itself is one more than those looked up since
  have new : key ∉ lookedUp since := fun hm => last (mem_lookedUp.1 hm)
  have sub : key :: lookedUp since ⊆ lookedUp (since ++ .lookup key :: before) := by
    intro k hk
    rw [mem_lookedUp]
    obtain rfl | hk := List.mem_cons.1 hk
    · exact List.mem_append_right since List.mem_cons_self
    · exact List.mem_append_left _ (mem_lookedUp.1 hk)
  have more := length_dedup_le sub
  rw [List.dedup_cons_of_notMem new, List.length_cons] at more
  exact Nat.le_trans more room

/-! ## The invariant -/

/-- Nothing was cleared. Each key that was looked up was started, and its last call returned, unless
the key is being computed. With room for all keys that were looked up, each was started once. -/
structure Orderly (busy : List κ) (capacity : Nat) (journal : List (Event κ ν)) : Prop where
  not_cleared : .clear ∉ journal
  returned : ∀ key ∉ busy, .lookup key ∈ journal → ∃ s, LastReturned journal key s
  started : ∀ key, key ∈ startedKeys journal ↔ .lookup key ∈ journal
  once : (lookedUp journal).dedup.length ≤ capacity → (startedKeys journal).Nodup

/-- A journal stays orderly when events about one key are noted, if it does so for that key. -/
lemma Orderly.append {busy' : List κ} {capacity : Nat} (h : Orderly busy capacity journal)
    (about : ∀ e ∈ since, e.key? = some key) (others : ∀ k ≠ key, k ∉ busy' → k ∉ busy)
    (returned : key ∉ busy' → ∃ s, LastReturned (since ++ journal) key s)
    (started : key ∈ startedKeys (since ++ journal) ↔ .lookup key ∈ since ++ journal)
    (once : (lookedUp journal).dedup.length ≤ capacity →
      (startedKeys since ++ startedKeys journal).Nodup) :
    Orderly busy' capacity (since ++ journal) := by
  have other {k : κ} (ne : k ≠ key) : ∀ e ∈ since, e.key? ≠ some k := fun e he hk =>
    ne (Option.some.inj (hk.symm.trans (about e he)))
  have split : startedKeys (since ++ journal) = startedKeys since ++ startedKeys journal :=
    List.filterMap_append
  refine ⟨fun hm => ?_, fun k hk hm => ?_, fun k => ?_, fun room => ?_⟩
  · obtain hm | hm := List.mem_append.1 hm
    · cases about _ hm
    · exact h.not_cleared hm
  · by_cases e : k = key
    · exact e ▸ returned (e ▸ hk)
    · have before := (List.mem_append.1 hm).resolve_left fun hm => other e _ hm rfl
      exact (h.returned k (others k e hk) before).imp fun s => (lastReturned_append (other e)).2
  · by_cases e : k = key
    · exact e ▸ started
    · have none : k ∉ startedKeys since := by
        intro hm
        obtain ⟨c, hm⟩ := mem_startedKeys.1 hm
        exact other e _ hm rfl
      rw [split, List.mem_append, List.mem_append, h.started k]
      exact or_congr (iff_of_false none fun hm => other e _ hm rfl) Iff.rfl
  · have sub : lookedUp journal ⊆ lookedUp (since ++ journal) := fun k hk =>
      mem_lookedUp.2 (List.mem_append_right since (mem_lookedUp.1 hk))
    exact split ▸ once (Nat.le_trans (length_dedup_le sub) room)

/-- What others work on is about no call. -/
lemma Orderly.work {capacity : Nat} (h : Orderly busy capacity journal) (k : κ)
    (parts : List Nat) : Orderly busy capacity (.worked k parts :: journal) where
  not_cleared hm := h.not_cleared ((List.mem_cons.1 hm).resolve_left nofun)
  returned key hk hm := by
    have other : ∀ e ∈ [(.worked k parts : Event κ ν)], e.key? ≠ some key :=
      List.forall_mem_singleton.2 nofun
    obtain ⟨s, returned⟩ := h.returned key hk ((List.mem_cons.1 hm).resolve_left nofun)
    exact ⟨s, (lastReturned_append other).2 returned⟩
  started key := (h.started key).trans
    ⟨List.mem_cons_of_mem _, fun hm => (List.mem_cons.1 hm).resolve_left nofun⟩
  once := h.once

/-- A memo that agrees with an orderly journal, in which the work of others is as planned but for
the parts that are owed. -/
structure Tidy (plan : κ → List Nat) (owed : List (κ × Nat)) (busy : List κ) (m : Memo κ ν) :
    Prop where
  consistent : ∃ owners, Consistent owners busy m
  misses_eq : m.misses = (startedKeys m.journal).length
  orderly : Orderly busy m.capacity m.journal
  balanced : Balanced plan owed m.journal

/-- A memo with nothing in it is tidy. -/
lemma Tidy.new (capacity : Nat) (pos : 0 < capacity) :
    Tidy plan [] [] (Memo.new capacity pos : Memo κ ν) where
  consistent := ⟨[], .new capacity pos⟩
  misses_eq := rfl
  orderly := ⟨List.not_mem_nil, fun _ _ h => absurd h List.not_mem_nil, fun _ => ⟨nofun, nofun⟩,
    fun _ => List.nodup_nil⟩
  balanced := balanced_nil

/-- Others do parts that are owed. -/
lemma Tidy.work {parts : List Nat} (h : Tidy plan (parts.map (key, ·) ++ owed) busy m) :
    Tidy plan owed busy (m.log (.worked key parts)) where
  consistent := h.consistent.imp fun _ consistent => consistent.work key parts
  misses_eq := h.misses_eq
  orderly := h.orderly.work key parts
  balanced := h.balanced.work

/-- A key whose computation is started was not started before, if there is room. -/
lemma Tidy.started (h : Tidy plan owed busy m) (hk : key ∉ busy) (misses : Misses m key) :
    Tidy plan (due plan key ++ owed) (key :: busy) (m.started key) := by
  obtain ⟨owners, consistent⟩ := h.consistent
  obtain ⟨more, consistent', _⟩ := consistent.started key
  have capacity : (m.started key).capacity = m.capacity := m.capacity_lookup key
  refine ⟨⟨_, consistent'⟩, ?_, ?_, ?_⟩
  · rw [journal_started]
    show (m.lookup key).2.misses + 1 = (startedKeys m.journal).length + 1
    rw [(m.counts_lookup key).2, h.misses_eq]
  · rw [journal_started, capacity]
    refine h.orderly.append (List.forall_mem_cons.2 ⟨rfl, List.forall_mem_singleton.2 rfl⟩)
      (fun k ne hk => (List.ne_and_not_mem_of_not_mem_cons hk).2)
      (fun hn => absurd List.mem_cons_self hn)
      (iff_of_true List.mem_cons_self (List.mem_cons_of_mem _ List.mem_cons_self))
      (fun room => List.nodup_cons.2 ⟨fun hm => ?_, h.orderly.once room⟩)
    -- what its last call returned would be found
    obtain ⟨s, returned⟩ := h.orderly.returned key hk ((h.orderly.started key).1 hm)
    have finds := (consistent.finds_iff hk).2 (returned.kept h.orderly.not_cleared room)
    exact absurd (finds.value?_eq.2.symm.trans misses) nofun
  · rw [journal_started]
    exact h.balanced.start key (m.lookup key).1

/-- A key that is found was looked up before. -/
lemma Consistent.lookup_mem_of_value? {v : ν} (h : Consistent owners busy m)
    (hv : m.value? (m.lookup key).1 = some v) : .lookup key ∈ m.journal := by
  obtain ⟨since, before, e, _⟩ := h.recency.cellOf?_iff.1 ⟨_, h.recent_of_value? hv⟩
  rw [e]
  exact List.mem_append_right since List.mem_cons_self

/-- A call that finds a value. -/
lemma Tidy.hit {s : Shared ν} (h : Tidy plan owed busy m)
    (hv : m.value? (m.lookup key).1 = some s.value)
    (hc : ∃ owners, Consistent owners busy ((m.lookup key).2.hit key (m.lookup key).1))
    (hr : LastReturned ((m.lookup key).2.hit key (m.lookup key).1).journal key s) :
    Tidy plan owed busy ((m.lookup key).2.hit key (m.lookup key).1) := by
  have journal : ((m.lookup key).2.hit key (m.lookup key).1).journal =
      [.hit key (m.lookup key).1, .lookup key] ++ m.journal :=
    congrArg (Event.hit key (m.lookup key).1 :: ·) (m.journal_lookup key)
  obtain ⟨owners, consistent⟩ := h.consistent
  have before := consistent.lookup_mem_of_value? hv
  have started : key ∈ startedKeys m.journal := (h.orderly.started key).2 before
  refine ⟨hc, ?_, ?_, ?_⟩
  · rw [journal]
    exact (m.counts_lookup key).2.trans h.misses_eq
  · rw [journal] at hr ⊢
    show Orderly busy (m.lookup key).2.capacity _
    rw [capacity_lookup]
    exact h.orderly.append (List.forall_mem_cons.2 ⟨rfl, List.forall_mem_singleton.2 rfl⟩)
      (fun _ _ hk => hk) (fun _ => ⟨s, hr⟩)
      (iff_of_true started (List.mem_append_right _ before)) h.orderly.once
  · rw [journal]
    exact h.balanced

/-- The end of a call whose computation gave a value. -/
lemma Tidy.conclude {s : Shared ν} {cell : Nat} {v : ν}
    (h : Tidy plan owed (key :: busy) m)
    (hc : ∃ owners, Consistent owners busy
      (conclude key cell ((.returned (.ok v) : Outcome ε ν), m)).2)
    (hr : LastReturned (conclude key cell ((.returned (.ok v) : Outcome ε ν), m)).2.journal key s) :
    Tidy plan owed busy (conclude key cell ((.returned (.ok v) : Outcome ε ν), m)).2 := by
  refine ⟨hc, h.misses_eq, ?_, h.balanced⟩
  show Orderly busy m.capacity ([.produced key cell v] ++ m.journal)
  refine h.orderly.append (List.forall_mem_singleton.2 rfl)
    (fun k ne hk => List.not_mem_cons_of_ne_of_not_mem ne hk) (fun _ => ⟨s, hr⟩)
    ((h.orderly.started key).trans ?_) h.orderly.once
  exact ⟨List.mem_cons_of_mem _, fun hm => (List.mem_cons.1 hm).resolve_left nofun⟩

/-- A call that gives a value, and whose computation keeps the memo tidy, keeps it tidy. -/
lemma Tidy.getWith {s : Shared ν} (h : Tidy plan owed busy m) (hk : key ∉ busy)
    (given : (m.getWith key body).1 = .returned (.ok s))
    (hbody : Misses m key → Runs (key :: busy) (m.started key) (body (m.started key)).2 ∧
      Tidy plan owed (key :: busy) (body (m.started key)).2) :
    Tidy plan owed busy (m.getWith key body).2 := by
  obtain ⟨owners, consistent⟩ := h.consistent
  obtain ⟨more, consistent', _, returned⟩ :=
    consistent.getWith hk fun misses => (hbody misses).1.respects
  have returned := (returned s).1 given
  cases hv : m.value? (m.lookup key).1 with
  | some v =>
    rw [getWith_of_value? hv] at given consistent' returned ⊢
    cases given
    exact h.hit hv ⟨_, consistent'⟩ returned
  | none =>
    have misses : Misses m key := hv
    have tidy := (hbody misses).2
    rw [misses.getWith_eq] at given consistent' returned ⊢
    generalize body (m.started key) = ended at given consistent' returned tidy ⊢
    obtain ⟨outcome, m'⟩ := ended
    cases outcome with
    | aborted fault => cases given
    | returned result =>
      cases result with
      | error e => cases given
      | ok v => exact tidy.conclude ⟨_, consistent'⟩ returned

end Memo

namespace Computation

open Memo

variable [DecidableEq κ] {m : Memo κ ν} {busy owners : List κ} {owed : List (κ × Nat)}

/-- A call for a key below those that are being computed, whose computation ends with values, gives
a value and keeps the memo tidy, provided that carrying out the computation does so. -/
lemma Yields.get [IsStrictOrder κ below] {body : Unit → Computation κ ν ε}
    (hc : (body ()).Yields good below plan key (plan key)) (above : ∀ k ∈ busy, below key k)
    (ht : Tidy plan owed busy m) (hs : Sound (Suits (ε := ε) (Delivers good)) owners m)
    (hrun : ∀ {m : Memo κ ν} {owners : List κ}, Tidy plan (due plan key ++ owed) (key :: busy) m →
      Sound (Suits (ε := ε) (Delivers good)) owners m →
      Runs (key :: busy) m ((body ()).run m).2 ∧
        Tidy plan owed (key :: busy) ((body ()).run m).2) :
    ∃ s m', m.get key body = (.returned (.ok s), m') ∧ good key s.value ∧ Runs busy m m' ∧
      Tidy plan owed busy m' ∧
      ∃ more, Sound (Suits (ε := ε) (Delivers good)) (owners ++ more) m' := by
  have free : key ∉ busy := fun hm => irrefl_of below key (above key hm)
  have inner (misses : Misses m key) :
      Runs (key :: busy) (m.started key) ((body ()).run (m.started key)).2 ∧
        Tidy plan owed (key :: busy) ((body ()).run (m.started key)).2 := by
    obtain ⟨more, hs', _⟩ := hs.lookup key
    exact hrun (ht.started free misses)
      (hs'.of_value?_eq (hs'.toOwned.start key _) fun _ => rfl)
  obtain ⟨⟨v, e, hv⟩, sound⟩ := Keeps.getWith hc.meets.keeps owners m hs
  obtain ⟨s, given, rfl⟩ := Outcome.eq_of_plain_eq_ok e
  exact ⟨s, _, Prod.ext given rfl, hv, .get free (fun misses => (inner misses).1) (.done _),
    ht.getWith free given inner, sound⟩

/-- A computation that ends with values keeps a memo tidy, leaves no part of its work undone, and
does nothing to the memo that a caller who is alone could not do. -/
lemma Yields.run [IsStrictOrder κ below] {c : Computation κ ν ε} {parts : List Nat}
    (hc : c.Yields good below plan key parts) (above : ∀ k ∈ busy, below key k)
    (ht : Tidy plan (parts.map (key, ·) ++ owed) (key :: busy) m)
    (hs : Sound (Suits (ε := ε) (Delivers good)) owners m) :
    Runs (key :: busy) m (c.run m).2 ∧ Tidy plan owed (key :: busy) (c.run m).2 := by
  induction c generalizing key parts busy owed m owners with
  | done result =>
    cases result with
    | error e => exact hc.elim
    | ok v =>
      obtain ⟨_, rfl⟩ := hc
      exact ⟨.done _, ht⟩
  | abort fault => exact hc.elim
  | clear next _ => exact hc.elim
  | await k now next ih =>
    obtain ⟨rfl, later, rfl, hnext⟩ := hc
    rw [List.map_append, List.append_assoc] at ht
    obtain ⟨runs, tidy⟩ := ih hnext above ht.work (hs.of_value?_eq (hs.toOwned.log _) fun _ => rfl)
    exact ⟨.work k now runs, tidy⟩
  | get k body next ihbody ihnext =>
    obtain ⟨hk, hbody, hnext⟩ := hc
    -- the key that is asked for is below all that are being computed
    have above' : ∀ k' ∈ key :: busy, below k k' :=
      List.forall_mem_cons.2 ⟨hk, fun k' hk' => IsTrans.trans _ _ _ hk (above k' hk')⟩
    obtain ⟨s, m', given, hv, runs, ht', more, hs'⟩ :=
      hbody.get above' ht hs fun ht hs => ihbody () hbody above' ht hs
    have goes_on : (Computation.get k body next).run m = (next (.returned (.ok s))).run m' := by
      rw [Memo.get] at given
      rw [Computation.run, given]
    obtain ⟨runs', tidy⟩ := ihnext _ (hnext s hv) above ht' hs'
    rw [goes_on]
    exact ⟨runs.trans runs', tidy⟩

end Computation

end RuleFormula
