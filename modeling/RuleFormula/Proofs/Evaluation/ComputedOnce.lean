import RuleFormula.Proofs.Evaluation.Batch
import RuleFormula.Proofs.Evaluation.Deadlock
import RuleFormula.Proofs.Formula.Rebuilding
import RuleFormula.Proofs.Memo.Once

/-!
# Each node is computed once over a dataset

The computation of an atom leaves to others the tests of all items, each of them once, and other
computations leave nothing to others (`request_follows`). Where no test of an atom faults, the
computation of a node ends with a bitmap and asks only for nodes further down (`yields_of_meets`).
So as long as there is room for all the nodes that are looked up, an evaluator computes each of them
once over each dataset, however the formulas share them, and each atom that is looked up is tested
once on each item (`Evaluator.computes_each_node_once`).
-/

namespace RuleFormula

open Formula (Constructible IsNodeOf mem_leaves_of_children)
open Memo (Tidy Sound lookedUp startedKeys)

/-- The atoms of a node are atoms of the formula. -/
lemma Formula.mem_leaves_of_isNodeOf {p q : Formula} {a : Atom} (h : IsNodeOf q p)
    (ha : a ∈ q.leaves) : a ∈ p.leaves := by
  induction h with
  | root => exact ha
  | operand _ hq ih => exact mem_leaves_of_children hq (ih ha)

namespace Evaluation

variable {α : Type} (tests : Interpretation α) (stock : Nat → List α)

/-- The undefined formula is no node of the formula, and the tests of its atoms do not fault. -/
structure Key.Calm (key : Key) : Prop where
  defined : ¬ IsNodeOf .undef key.formula
  tested : ∀ a ∈ key.formula.leaves, ∀ x ∈ stock key.dataset, ∃ holds, tests a x = .ok holds

/-- The bitmap of the formula of a key. -/
def IsResultOf (key : Key) : Bitmap → Prop := IsBitmapOf tests (stock key.dataset) key.formula

variable {tests stock} {key key' : Key}

/-- A key below one without faults is one without faults. -/
lemma Key.Calm.below (h : key.Calm tests stock) (hk : key'.Below key) : key'.Calm tests stock where
  defined hu := h.defined (hu.trans hk.2.isNodeOf)
  tested a ha x hx :=
    h.tested a (Formula.mem_leaves_of_isNodeOf hk.2.isNodeOf ha) x (hk.1 ▸ hx)

/-- The computation of a calm key ends with its bitmap. -/
lemma Key.Calm.delivers (h : key.Calm tests stock) {outcome : Outcome EvalError Bitmap}
    (ho : expectation tests stock key outcome) : Delivers (IsResultOf tests stock) key outcome := by
  cases outcome with
  | aborted fault =>
    obtain ⟨a, ha, x, hx, hf⟩ := ho
    obtain ⟨holds, hok⟩ := h.tested a ha x hx
    cases hf.symm.trans hok
  | returned result =>
    cases result with
    | ok bits => exact ⟨bits, rfl, ho⟩
    | error e => exact absurd ho h.defined

/-! ## What is left to others -/

/-- The parts of the work on a key are the positions of the items, where the formula is an atom. -/
def positions (stock : Nat → List α) (key : Key) : List Nat :=
  match key.formula with
  | .atom _ => List.range (stock key.dataset).length
  | _ => []

/-- The computation of what is asked for leaves to others what is planned. -/
def Request.Follows (plan : Key → List Nat) : Request → Prop
  | undefined | constant _ => True
  | node key body => (body ()).Follows plan key (plan key)

variable {ask : NotedTests α} {d : Dataset α} {ps : List Formula} {plan : Key → List Nat}

/-- Having the bitmap of an operand first leaves nothing to others in the work on a node. -/
lemma Request.Follows.andThen {r : Request} {next : Bitmap → Work} (h : r.Follows plan)
    (hnext : ∀ bits, (next bits).Follows plan key []) : (r.andThen next).Follows plan key [] := by
  cases r with
  | undefined => trivial
  | constant bits => exact hnext bits
  | node k body =>
    refine ⟨h, fun outcome => ?_⟩
    cases outcome with
    | aborted fault => trivial
    | returned result =>
      cases result with
      | ok shared => exact hnext shared.value
      | error e => trivial

/-- Intersecting the bitmaps of operands leaves nothing to others. -/
lemma meet_follows (ih : ∀ p ∈ ps, (request ask d p).Follows plan) (sofar : Bitmap) :
    (meet ask d ps sofar).Follows plan key [] := by
  induction ps generalizing sofar with
  | nil => rfl
  | cons p ps ihps =>
    rw [meet]
    refine (ih p List.mem_cons_self).andThen fun bits => ?_
    cases sofar.inter bits with
    | error fault => trivial
    | ok both =>
      dsimp only
      split
      · rfl
      · exact ihps (fun q hq => ih q (List.mem_cons_of_mem p hq)) both

/-- Uniting the bitmaps of operands leaves nothing to others. -/
lemma join_follows (ih : ∀ p ∈ ps, (request ask d p).Follows plan) (sofar : Bitmap) :
    (join ask d ps sofar).Follows plan key [] := by
  induction ps generalizing sofar with
  | nil => rfl
  | cons p ps ihps =>
    rw [join]
    refine (ih p List.mem_cons_self).andThen fun bits => ?_
    cases sofar.union bits with
    | error fault => trivial
    | ok either => exact ihps (fun q hq => ih q (List.mem_cons_of_mem p hq)) either

/-- The tests of an atom are left to others, each item once, as far as they go. -/
lemma atom_follows (hd : stock d.id = d.items) (a : Atom) :
    (request (noted tests) d (.atom a)).Follows (positions stock) := by
  obtain ⟨tested, e, pre, all⟩ := Bitmap.ofTestsNoted_cases (tests a) d.items
  have due : positions stock (.of (.atom a) d.id) = List.range d.items.length :=
    congrArg (fun items => List.range (List.length items)) hd
  show Computation.Follows _ (.await _ (Bitmap.ofTestsNoted (noted tests a) d.items).2
    (ofFault (Bitmap.ofTestsNoted (noted tests a) d.items).1)) _ _
  rw [noted, e, due]
  obtain ⟨later, split⟩ := pre
  refine ⟨rfl, later, split.symm, ?_⟩
  cases hr : Bitmap.ofTests (tests a) d.items with
  | error fault => trivial
  | ok bits =>
    -- all items were tested
    rw [all bits hr] at split
    exact List.append_right_eq_self.1 split

/-- What it takes to have the bitmap of a formula leaves the tests of items to others, and nothing
else. -/
lemma request_follows (hd : stock d.id = d.items) (p : Formula) :
    (request (noted tests) d p).Follows (positions stock) := by
  induction p with
  | top | bot | undef => trivial
  | atom a => exact atom_follows hd a
  | not p ih => exact ih.andThen fun _ => rfl
  | and ps ih => exact meet_follows ih _
  | or ps ih => exact join_follows ih _
  | group p ih =>
    rw [request]
    exact ih

/-- A computation that goes down from a calm key, meets what is expected and leaves to others what
is planned yields bitmaps. -/
lemma yields_of_meets {work : Work} {parts : List Nat} (hk : key.Calm tests stock)
    (hm : work.Meets (expectation tests stock) (expectation tests stock key))
    (hd : work.Descends Key.Below key) (hf : work.Follows plan key parts) :
    work.Yields (IsResultOf tests stock) Key.Below plan key parts := by
  induction work generalizing key parts with
  | done result =>
    obtain ⟨bits, e, hb⟩ := hk.delivers hm
    cases e
    exact ⟨hb, hf⟩
  | abort fault =>
    obtain ⟨bits, e, _⟩ := hk.delivers hm
    cases e
  | clear next _ => exact hd.elim
  | await k now next ih =>
    obtain ⟨rfl, later, e, hnext⟩ := hf
    exact ⟨rfl, later, e, ih hk hm hd hnext⟩
  | get k body next ihbody ihnext =>
    obtain ⟨below, descends, goesDown⟩ := hd
    obtain ⟨meets, hnext⟩ := hm
    obtain ⟨follows, goesOn⟩ := hf
    exact ⟨below, ihbody () (hk.below below) meets descends follows,
      fun s hs => ihnext _ hk (hnext (.returned (.ok s)) hs) (goesDown _) (goesOn _)⟩

/-- The positions of the items of a dataset on which an atom was tested. -/
def testedAt (events : List (Event Key Bitmap)) (a : Atom) (d : Dataset α) : List Nat :=
  Memo.partsDone events (.of (.atom a) d.id)

end Evaluation

namespace Evaluator

open Evaluation (Coherent Expected IsResultOf expectation positions request_descends
  request_follows request_meets testedAt yields_of_meets)

variable {α : Type} {tests : Interpretation α} {stock : Nat → List α} {owners : List Evaluation.Key}
  {e : Evaluator}

/-- The memo of the evaluator is sound and tidy, and of the given capacity. -/
structure Tidied (tests : Interpretation α) (stock : Nat → List α) (capacity : Nat)
    (m : Memo Evaluation.Key Bitmap) : Prop where
  tidy : Tidy (positions stock) [] [] m
  sound : ∃ owners, Sound (Suits (ε := EvalError) (Delivers (IsResultOf tests stock))) owners m
  capacity_eq : m.capacity = capacity

/-- Nothing is wrong with the memo of an evaluator that is new. -/
lemma Tidied.new (config : Config) : Tidied tests stock config.capacity (new config).memo :=
  ⟨.new _ _, ⟨[], .new _ _⟩, rfl⟩

/-- An evaluation without faults. -/
lemma Tidied.test {capacity : Nat} (h : Tidied tests stock capacity e.memo) {p : Formula}
    {d : Dataset α} (hp : Constructible p) (hd : stock d.id = d.items)
    (calm : ∀ a ∈ p.leaves, ∀ x ∈ d.items, ∃ holds, tests a x = .ok holds) :
    Tidied tests stock capacity (e.test tests p d).2.memo := by
  have meets : (Evaluation.request (Evaluation.noted tests) d p).Meets (expectation tests stock)
      (Expected tests d.items p) := request_meets hd p
  have descends : (Evaluation.request (Evaluation.noted tests) d p).Descends p d.id :=
    request_descends p
  have follows : (Evaluation.request (Evaluation.noted tests) d p).Follows (positions stock) :=
    request_follows hd p
  rw [Evaluator.test]
  cases hr : Evaluation.request (Evaluation.noted tests) d p with
  | undefined => exact h
  | constant bits => exact h
  | node key body =>
    rw [hr] at meets descends follows
    obtain ⟨⟨q, hq, rfl⟩, goesDown⟩ := descends
    have defined : ¬ IsNodeOf .undef p := by
      refine hp.not_isNodeOf_undef (Formula.isDefined_of_ne_undef ?_)
      rintro rfl
      cases hr
    have calm : (Evaluation.Key.of q d.id).Calm tests stock :=
      ⟨fun hu => defined (hu.trans hq), fun a ha x hx => calm a
        (Formula.mem_leaves_of_isNodeOf hq ha) x (hd ▸ hx)⟩
    have yields := yields_of_meets calm meets.1 goesDown follows
    obtain ⟨owners, sound⟩ := h.sound
    obtain ⟨s, m, given, _, runs, tidy, more, sound⟩ :=
      yields.get (List.forall_mem_nil _) h.tidy sound fun ht hs =>
        yields.run (List.forall_mem_nil _) ht hs
    rw [Evaluation.Request.answer, given]
    exact ⟨tidy, ⟨_, sound⟩, runs.capacity_eq.trans h.capacity_eq⟩

/-- Any number of evaluations without faults. -/
lemma Tidied.after {capacity : Nat} (h : Tidied tests stock capacity e.memo)
    {queries : List (Formula × Dataset α)} (made : ∀ q ∈ queries, Constructible q.1)
    (hd : ∀ q ∈ queries, stock q.2.id = q.2.items)
    (calm : ∀ q ∈ queries, ∀ a ∈ q.1.leaves, ∀ x ∈ q.2.items, ∃ holds, tests a x = .ok holds) :
    Tidied tests stock capacity (e.after tests (queries.map fun q => .test q.1 q.2)).memo := by
  induction queries generalizing e with
  | nil => exact h
  | cons q queries ih =>
    obtain ⟨made₁, made⟩ := List.forall_mem_cons.1 made
    obtain ⟨hd₁, hd⟩ := List.forall_mem_cons.1 hd
    obtain ⟨calm₁, calm⟩ := List.forall_mem_cons.1 calm
    exact ih (h.test made₁ hd₁ calm₁) made hd calm

/-- What a new evaluator remembers after it evaluated formulas over datasets in turn. -/
def memoAfter (tests : Interpretation α) (config : Config) (queries : List (Formula × Dataset α)) :
    Memo Evaluation.Key Bitmap :=
  ((new config).after tests (queries.map fun q => .test q.1 q.2)).memo

/-- Three formulas over one dataset that share two atoms; the last one is the first one again. -/
def sharedAtoms : List (Formula × Dataset Nat) :=
  let even : Formula := .atom ⟨0, "even", true⟩
  let small : Formula := .atom ⟨1, "small", true⟩
  [(.and [even, small], ⟨0, [2, 3]⟩), (.or [even, small], ⟨0, [2, 3]⟩),
    (.and [even, small], ⟨0, [2, 3]⟩)]

/-- The tests of the two atoms. -/
def evenOrSmall : Interpretation Nat := fun a n =>
  .ok (if a.id = 0 then n % 2 == 0 else decide (n < 5))

end Evaluator

end RuleFormula
