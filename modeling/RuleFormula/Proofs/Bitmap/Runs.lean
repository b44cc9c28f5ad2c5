import Mathlib.Algebra.Order.Floor.Div
import Mathlib.Data.Set.Card
import Mathlib.GroupTheory.GroupAction.Ring
import RuleFormula.Bitmap.InPlace
import RuleFormula.Proofs.Bitmap.Members

/-!
# Runs over bitmaps

A run makes sets and changes them in place, one call after the other. A change that faults leaves
its set as it was, and the run goes on. Every set of a run is tight (`Made.tight`), so that it has
as many words as it needs and no bit past its size, and is determined by its size and its members
(`determined_by_members`).
-/

namespace RuleFormula

namespace Bitmap

variable {α : Type} {a b c : Bitmap} {sets : List Bitmap}

/-! ## Changing a set in place -/

/-- How a change that gives a new set ends in place: with its answer and the new set, or with its
fault and the set as it was. -/
def inPlace (b : Bitmap) (result : Except Fault (α × Bitmap)) : Except Fault α × Bitmap :=
  match result with
  | .ok (answer, c) => (.ok answer, c)
  | .error fault => (.error fault, b)

/-- An insertion that faults has not written yet. -/
lemma insertHere_eq (b : Bitmap) (i : Nat) : b.insertHere i = b.inPlace (b.insert i) := by
  rw [insertHere, Change.insert, Change.on_get_bind, insert]
  split
  · next h =>
    rw [Change.on_word_bind, Change.on_pure, contains_eq, decide_eq_true h, Bool.true_and]
    rfl
  · rw [Change.on_throw]
    rfl

/-- An erasure does not fault. -/
lemma eraseHere_eq (b : Bitmap) (i : Nat) : b.eraseHere i = b.inPlace (.ok (b.erase i)) := by
  rw [eraseHere, Change.erase, Change.on_get_bind, erase]
  split
  · next h =>
    rw [Change.on_word_bind, Change.on_pure, contains_eq, decide_eq_true h, Bool.true_and]
    rfl
  · rw [Change.on_pure]
    rfl

/-- Where each word has one to be combined with, none stays as it is. -/
lemma combinedWords_eq_zipWith (f : Word → Word → Word) {vs ws : List Word}
    (h : vs.length = ws.length) : combinedWords f vs ws = List.zipWith f vs ws := by
  induction vs generalizing ws with
  | nil => rfl
  | cons v vs ih =>
    cases ws with
    | nil => cases h
    | cons w ws => rw [combinedWords, List.zipWith_cons_cons, ih (Nat.succ.inj h)]

/-- Sets of different sizes are told apart before a word is written, and tight sets of one size have
the same number of words. -/
lemma on_combine (s : a.Tight) (t : b.Tight) (f : Word → Word → Word) :
    (Change.combine f b).on a = a.inPlace (Except.map (fun d => ((), d)) (if a.size = b.size then
      .ok { a with words := List.zipWith f a.words b.words } else .error .sizesDiffer)) := by
  rw [Change.combine, Change.on_get_bind]
  split
  · next h =>
    have hlen : a.words.length = b.words.length := by rw [s.length_words, t.length_words, h]
    rw [Change.on_set, combinedWords_eq_zipWith f hlen]
    rfl
  · rw [Change.on_throw]
    rfl

/-- Tight sets that are intersected in place end as their intersection does. -/
lemma interHere_eq (s : a.Tight) (t : b.Tight) :
    a.interHere b = a.inPlace ((a.inter b).map fun d => ((), d)) := on_combine s t (· &&& ·)

/-- Tight sets that are united in place end as their union does. -/
lemma unionHere_eq (s : a.Tight) (t : b.Tight) :
    a.unionHere b = a.inPlace ((a.union b).map fun d => ((), d)) := on_combine s t (· ||| ·)

/-- A set stays tight in place when the new set is tight. -/
lemma tight_inPlace {result : Except Fault (α × Bitmap)} (t : b.Tight)
    (h : ∀ answer c, result = .ok (answer, c) → c.Tight) : (b.inPlace result).2.Tight := by
  cases result with
  | ok end' => exact h end'.1 end'.2 rfl
  | error fault => exact t

/-- An insertion keeps the set tight, whether it faults or not. -/
lemma tight_insertHere (t : b.Tight) (i : Nat) : (b.insertHere i).2.Tight := by
  rw [insertHere_eq]
  refine tight_inPlace t fun answer c e => ?_
  obtain hi | hi := Nat.lt_or_ge i b.size
  · obtain ⟨d, e', td, _⟩ := insert_of_lt t hi
    obtain ⟨_, rfl⟩ := Prod.mk.inj (Except.ok.inj (e.symm.trans e'))
    exact td
  · cases e.symm.trans (insert_of_le hi)

/-- An erasure keeps the set tight. -/
lemma tight_eraseHere (t : b.Tight) (i : Nat) : (b.eraseHere i).2.Tight := by
  rw [eraseHere_eq]
  exact tight_erase t i

/-- Combining two sets gives, in place, a set of the same size with the members that both make
together; sets of different sizes cannot be combined. -/
def Combines (op : Bool → Bool → Bool) (a b : Bitmap) (result : Except Fault Bitmap) : Prop :=
  (a.size = b.size → ∃ c, result = .ok c ∧ c.Tight ∧ c.size = a.size ∧
    ∀ i, c.contains i = op (a.contains i) (b.contains i)) ∧
  (a.size ≠ b.size → result = .error .sizesDiffer)

/-- An intersection combines indices by conjunction. -/
lemma combines_inter (s : a.Tight) (t : b.Tight) : Combines (· && ·) a b (a.inter b) :=
  ⟨inter_of_size_eq s t, inter_of_size_ne⟩

/-- A union combines indices by disjunction. -/
lemma combines_union (s : a.Tight) (t : b.Tight) : Combines (· || ·) a b (a.union b) :=
  ⟨union_of_size_eq s t, union_of_size_ne⟩

/-- A set that is combined in place stays tight, whether the sizes fit or not. -/
lemma Combines.tight {op : Bool → Bool → Bool} {result : Except Fault Bitmap}
    (h : Combines op a b result) (t : a.Tight) :
    (a.inPlace (result.map fun d => ((), d))).2.Tight := by
  by_cases hs : a.size = b.size
  · obtain ⟨c, rfl, tc, _⟩ := h.1 hs
    exact tc
  · obtain rfl := h.2 hs
    exact t

/-- An intersection in place keeps the set tight. -/
lemma tight_interHere (s : a.Tight) (t : b.Tight) : (a.interHere b).2.Tight := by
  rw [interHere_eq s t]
  exact (combines_inter s t).tight s

/-- A union in place keeps the set tight. -/
lemma tight_unionHere (s : a.Tight) (t : b.Tight) : (a.unionHere b).2.Tight := by
  rw [unionHere_eq s t]
  exact (combines_union s t).tight s

/-! ## Runs -/

/-- A call on the sets of a run, which are told by their positions. -/
inductive Call
  | empty (size : Nat)
  | full (size : Nat)
  | ofWords (words : List Word) (size : Nat)
  | ofBools (bits : List Bool)
  | copy (k : Nat)
  | compl (k : Nat)
  | insert (k i : Nat)
  | erase (k i : Nat)
  | inter (k l : Nat)
  | union (k l : Nat)
deriving DecidableEq, Repr

/-- The sets after a call. A new set comes behind the others, unless its making faults; the call of
a set that is not there does nothing. -/
def Call.run (sets : List Bitmap) : Call → List Bitmap
  | empty size => sets ++ [Bitmap.empty size]
  | full size => sets ++ [Bitmap.full size]
  | ofWords words size => sets ++ (Bitmap.ofWords words size).toOption.toList
  | ofBools bits => sets ++ [Bitmap.ofBools bits]
  | copy k => sets ++ sets[k]?.toList
  | compl k => sets ++ (sets[k]?.map Bitmap.compl).toList
  | insert k i => sets.modify k fun b => (b.insertHere i).2
  | erase k i => sets.modify k fun b => (b.eraseHere i).2
  | inter k l => sets[l]?.elim sets fun c => sets.modify k fun b => (b.interHere c).2
  | union k l => sets[l]?.elim sets fun c => sets.modify k fun b => (b.unionHere c).2

/-- The sets of a run, which begins with none. -/
def setsAfter (calls : List Call) : List Bitmap := calls.foldl Call.run []

/-- A set of some run. -/
def Made (b : Bitmap) : Prop := ∃ calls, b ∈ setsAfter calls

/-- What holds of elements and of another one that may be there holds of them together. -/
lemma forall_mem_append_toList {P : α → Prop} {xs : List α} {x : Option α} (h : ∀ y ∈ xs, P y)
    (hx : ∀ y, x = some y → P y) : ∀ y ∈ xs ++ x.toList, P y := by
  rintro y hy
  obtain hy | hy := List.mem_append.1 hy
  · exact h y hy
  · exact hx y (Option.mem_toList.1 hy)

/-- What holds of all elements, and is kept by a change, holds after one element is changed. -/
lemma forall_mem_modify {P : α → Prop} {xs : List α} {k : Nat} {f : α → α} (h : ∀ y ∈ xs, P y)
    (hf : ∀ y, P y → P (f y)) : ∀ y ∈ xs.modify k f, P y := by
  intro y hy
  obtain ⟨j, hj⟩ := List.mem_iff_getElem?.1 hy
  rw [List.getElem?_modify] at hj
  obtain ⟨x, hx, rfl⟩ := Option.map_eq_some_iff.1 hj
  have px := h x (List.mem_of_getElem? hx)
  split_ifs
  · exact hf x px
  · exact px

/-- A call keeps all sets tight. -/
lemma Call.run_tight (h : ∀ b ∈ sets, b.Tight) (call : Call) : ∀ b ∈ call.run sets, b.Tight := by
  have made {c : Bitmap} (tc : c.Tight) : ∀ b ∈ sets ++ [c], b.Tight :=
    List.forall_mem_append.2 ⟨h, List.forall_mem_singleton.2 tc⟩
  have there {k : Nat} {c : Bitmap} (hk : sets[k]? = some c) : c.Tight :=
    h c (List.mem_of_getElem? hk)
  have combined (k l : Nat) {f : Bitmap → Bitmap → Bitmap}
      (hf : ∀ b c, b.Tight → c.Tight → (f b c).Tight) :
      ∀ b ∈ sets[l]?.elim sets fun c => sets.modify k fun b => f b c, b.Tight := by
    cases hl : sets[l]? with
    | none => exact h
    | some c => exact forall_mem_modify h fun b tb => hf b c tb (there hl)
  cases call with
  | empty size => exact made (tight_empty size)
  | full size => exact made (tight_full size)
  | ofWords words size =>
    refine forall_mem_append_toList h fun c hc => ?_
    cases e : Bitmap.ofWords words size with
    | ok d =>
      rw [e] at hc
      cases hc
      exact tight_ofWords e
    | error fault =>
      rw [e] at hc
      cases hc
  | ofBools bits => exact made (tight_ofBools bits)
  | copy k => exact forall_mem_append_toList h fun _ hk => there hk
  | compl k =>
    refine forall_mem_append_toList h fun c hc => ?_
    obtain ⟨b, hk, rfl⟩ := Option.map_eq_some_iff.1 hc
    exact tight_compl (there hk)
  | insert k i => exact forall_mem_modify h fun _ tb => tight_insertHere tb i
  | erase k i => exact forall_mem_modify h fun _ tb => tight_eraseHere tb i
  | inter k l => exact combined k l fun _ _ => tight_interHere
  | union k l => exact combined k l fun _ _ => tight_unionHere

/-- A run keeps all sets tight. -/
lemma foldl_run_tight (h : ∀ b ∈ sets, b.Tight) (calls : List Call) :
    ∀ b ∈ calls.foldl Call.run sets, b.Tight := by
  induction calls generalizing sets with
  | nil => exact h
  | cons call calls ih => exact ih (call.run_tight h)

/-- All sets of a run are tight. -/
lemma Made.tight (h : Made b) : b.Tight := by
  obtain ⟨calls, hb⟩ := h
  exact foldl_run_tight (List.forall_mem_nil _) calls b hb

/-! ## What a set of a run is made of -/

/-- The number of words is the size divided by 64, rounded up. -/
lemma wordCount_eq_ceilDiv (size : Nat) : wordCount size = size ⌈/⌉ 64 :=
  (Nat.ceilDiv_eq_add_pred_div size 64).symm

/-- The bits of the last word that lie past the size are clear. -/
lemma Tight.clear_in_last (t : b.Tight) {w : Word} (hw : b.words.getLast? = some w) {j : Nat}
    (hj : j < 64) (hp : b.size ≤ 64 * (b.words.length - 1) + j) : w.getLsbD j = false := by
  have clear := t.bitAt_of_le _ hp
  have hdiv : (64 * (b.words.length - 1) + j) / 64 = b.words.length - 1 := by omega
  have hmod : (64 * (b.words.length - 1) + j) % 64 = j := by omega
  rw [List.getLast?_eq_getElem?] at hw
  rwa [bitAt, hdiv, hmod, List.getD_eq_getElem?_getD, hw] at clear

/-- Tight sets are compared by their sizes and members. -/
lemma Tight.beq_iff (s : a.Tight) (t : b.Tight) :
    (a == b) = true ↔ a.size = b.size ∧ ∀ i, a.contains i = b.contains i := by
  rw [beq_iff_eq]
  constructor
  · rintro rfl
    exact ⟨rfl, fun _ => rfl⟩
  · rintro ⟨hsize, hmem⟩
    exact s.ext t hsize hmem

/-- A tight set counts its members. -/
lemma Tight.encard_members (t : b.Tight) : {i | b.contains i = true}.encard = b.count := by
  have listed : {i | b.contains i = true} = (b.members.toFinset : Set Nat) := by
    ext i
    rw [Set.mem_ofPred_eq, ← t.mem_members, Finset.mem_coe, List.mem_toFinset]
  rw [listed, Set.encard_coe_eq_coe_finsetCard,
    List.toFinset_card_of_nodup (pairwise_members b).nodup, length_members]

/-- The sets of a run have the words that their size needs and no bit past it. So two of them are
equal exactly when they have the same size and the same members, one is empty exactly when it has no
member, and its count is the number of its members. -/
theorem determined_by_members (ha : Made a) (hb : Made b) :
    (a.words.length = a.size ⌈/⌉ 64 ∧ ∀ w, a.words.getLast? = some w →
      ∀ j < 64, a.size ≤ 64 * (a.words.length - 1) + j → w.getLsbD j = false) ∧
    ((a == b) = true ↔ a.size = b.size ∧ ∀ i, a.contains i = b.contains i) ∧
    (a.isEmpty = true ↔ ∀ i, a.contains i = false) ∧
    {i | a.contains i = true}.encard = a.count := by
  have s := ha.tight
  have length := s.length_words.trans (wordCount_eq_ceilDiv a.size)
  exact ⟨⟨length, fun _ hw _ hj hp => s.clear_in_last hw hj hp⟩, s.beq_iff hb.tight,
    s.isEmpty_iff, s.encard_members⟩

/-- A set of 65 members in 66 places, made in a run in which an insertion faults. -/
theorem determined_by_members_after_fault :
    Made ⟨[BitVec.allOnes 64, 1], 66⟩ ∧ Made (Bitmap.full 65) ∧
    (Bitmap.mk [BitVec.allOnes 64, 1] 66).words.length = 66 ⌈/⌉ 64 ∧
    (Bitmap.mk [BitVec.allOnes 64, 1] 66 == Bitmap.full 65) = false ∧
    {i | (Bitmap.mk [BitVec.allOnes 64, 1] 66).contains i = true}.encard = 65 := by
  have made : Made ⟨[BitVec.allOnes 64, 1], 66⟩ :=
    ⟨[.full 66, .insert 0 66, .erase 0 65], by decide⟩
  have smaller : Made (Bitmap.full 65) := ⟨[.full 65], by decide⟩
  obtain ⟨⟨length, _⟩, equal, _, count⟩ := determined_by_members made smaller
  refine ⟨made, smaller, length, ?_, count⟩
  rw [Bool.eq_false_iff, Ne, equal]
  rintro ⟨size, _⟩
  cases size

end Bitmap

end RuleFormula
