import RuleFormula.Evaluation.Request
import RuleFormula.Proofs.Bitmap.Members
import RuleFormula.Proofs.Bitmap.Shown
import RuleFormula.Proofs.Formula.Constructible
import RuleFormula.Proofs.Formula.Leaves
import RuleFormula.Proofs.Memo.Specified

/-!
# What is expected of an evaluation

`IsBitmapOf` says that a bitmap has the truth values of a formula on the items of a list, and
`Expected` says how the evaluation of a formula may end: with such a bitmap, with an error where the
undefined formula is a node of it, and by a fault where the test of one of its atoms faults on some
item. What it takes to have the bitmap of a formula meets this specification (`request_meets`).
-/

namespace RuleFormula

open Formula

namespace Formula

variable {ask : Atom → Except Fault Bool}

/-- The second operands of a conjunction are tested where all first ones hold. -/
lemma testAll_append (ps qs : List Formula) :
    testAll ask (ps ++ qs) =
      (testAll ask ps >>= fun holds => if holds then testAll ask qs else pure false) := by
  induction ps with
  | nil =>
    rw [List.nil_append, testAll]
    rfl
  | cons p ps ih =>
    rw [List.cons_append, testAll, testAll, ih]
    cases test ask p with
    | error fault => rfl
    | ok holds => cases holds <;> rfl

/-- The second operands of a disjunction are tested where no first one holds. -/
lemma testAny_append (ps qs : List Formula) :
    testAny ask (ps ++ qs) =
      (testAny ask ps >>= fun holds => if holds then pure true else testAny ask qs) := by
  induction ps with
  | nil =>
    rw [List.nil_append, testAny]
    rfl
  | cons p ps ih =>
    rw [List.cons_append, testAny, testAny, ih]
    cases test ask p with
    | error fault => rfl
    | ok holds => cases holds <;> rfl

end Formula

namespace Evaluation

variable {α : Type} {tests : Interpretation α} {items : List α} {p q : Formula}
  {ps qs : List Formula} {bits sofar : Bitmap}

/-! ## Bitmaps of formulas -/

/-- A bitmap over the items of a list whose members are the positions of the items on which a
formula holds. On each item the test of the formula comes to an end. -/
structure IsBitmapOf (tests : Interpretation α) (items : List α) (p : Formula) (bits : Bitmap) :
    Prop where
  tight : bits.Tight
  size_eq : bits.size = items.length
  test_eq (i : Nat) (hi : i < items.length) :
    p.test (fun a => tests a items[i]) = .ok (bits.contains i)

/-- The full bitmap is the one of the formula that holds of every item. -/
lemma isBitmapOf_full : IsBitmapOf tests items .top (.full items.length) where
  tight := Bitmap.tight_full _
  size_eq := Bitmap.size_full _
  test_eq i hi := by
    rw [Bitmap.contains_full, decide_eq_true hi]
    rfl

/-- The empty bitmap is the one of the formula that holds of no item. -/
lemma isBitmapOf_empty : IsBitmapOf tests items .bot (.empty items.length) where
  tight := Bitmap.tight_empty _
  size_eq := Bitmap.size_empty _
  test_eq i hi := by
    rw [Bitmap.contains_empty]
    rfl

/-- Formulas with the same answers, whatever their atoms say, have the same bitmap. -/
lemma IsBitmapOf.of_test_eq (h : IsBitmapOf tests items p bits)
    (e : ∀ ask : Atom → Except Fault Bool, q.test ask = p.test ask) :
    IsBitmapOf tests items q bits :=
  ⟨h.tight, h.size_eq, fun i hi => (e _).trans (h.test_eq i hi)⟩

/-- The complement is the bitmap of the negation. -/
lemma IsBitmapOf.compl (h : IsBitmapOf tests items p bits) :
    IsBitmapOf tests items (.not p) bits.compl where
  tight := Bitmap.tight_compl h.tight
  size_eq := (Bitmap.size_compl bits).trans h.size_eq
  test_eq i hi := by
    rw [test, h.test_eq i hi, Bitmap.contains_compl h.tight, h.size_eq, decide_eq_true hi,
      Bool.true_and]
    rfl

/-- One more operand of a conjunction is intersected with what is left. -/
lemma IsBitmapOf.inter (hs : IsBitmapOf tests items (.and qs) sofar)
    (hp : IsBitmapOf tests items p bits) :
    ∃ both, sofar.inter bits = .ok both ∧ IsBitmapOf tests items (.and (qs ++ [p])) both := by
  obtain ⟨both, hok, tight, size, contains⟩ :=
    Bitmap.inter_of_size_eq hs.tight hp.tight (hs.size_eq.trans hp.size_eq.symm)
  refine ⟨both, hok, tight, size.trans hs.size_eq, fun i hi => ?_⟩
  have first := hs.test_eq i hi
  rw [test] at first
  rw [test, testAll_append, first, contains]
  show (if sofar.contains i then testAll _ [p] else pure false) = _
  rw [testAll, hp.test_eq i hi]
  cases sofar.contains i <;> cases bits.contains i <;> rfl

/-- One more operand of a disjunction is united with what was found. -/
lemma IsBitmapOf.union (hs : IsBitmapOf tests items (.or qs) sofar)
    (hp : IsBitmapOf tests items p bits) :
    ∃ either, sofar.union bits = .ok either ∧
      IsBitmapOf tests items (.or (qs ++ [p])) either := by
  obtain ⟨either, hok, tight, size, contains⟩ :=
    Bitmap.union_of_size_eq hs.tight hp.tight (hs.size_eq.trans hp.size_eq.symm)
  refine ⟨either, hok, tight, size.trans hs.size_eq, fun i hi => ?_⟩
  have first := hs.test_eq i hi
  rw [test] at first
  rw [test, testAny_append, first, contains]
  show (if sofar.contains i then pure true else testAny _ [p]) = _
  rw [testAny, hp.test_eq i hi]
  cases sofar.contains i <;> cases bits.contains i <;> rfl

/-- Where no item is left, more operands leave none, and their tests are not asked for. -/
lemma IsBitmapOf.of_isEmpty (h : IsBitmapOf tests items (.and qs) bits)
    (he : bits.isEmpty = true) (ps : List Formula) :
    IsBitmapOf tests items (.and (qs ++ ps)) bits := by
  refine ⟨h.tight, h.size_eq, fun i hi => ?_⟩
  have first := h.test_eq i hi
  rw [Bitmap.contains_of_isEmpty he, test] at first
  rw [Bitmap.contains_of_isEmpty he, test, testAll_append, first]
  rfl

/-! ## How an evaluation may end -/

/-- How the evaluation of a formula over items may end. -/
def Expected (tests : Interpretation α) (items : List α) (p : Formula) :
    Outcome EvalError Bitmap → Prop
  | .returned (.ok bits) => IsBitmapOf tests items p bits
  | .returned (.error _) => IsNodeOf .undef p
  | .aborted fault => ∃ a ∈ p.leaves, ∃ x ∈ items, tests a x = .error fault

/-- An error that is right for an operand is right for the formula. -/
lemma Expected.error_of_operand {e : EvalError} (hq : q ∈ p.children)
    (h : Expected tests items q (.returned (.error e))) :
    Expected tests items p (.returned (.error e)) :=
  IsNodeOf.operand h hq

/-- A fault that an operand explains, the formula explains. -/
lemma Expected.aborted_of_operand {fault : Fault} (hq : q ∈ p.children)
    (h : Expected tests items q (.aborted fault)) : Expected tests items p (.aborted fault) := by
  obtain ⟨a, ha, hx⟩ := h
  exact ⟨a, mem_leaves_of_children hq ha, hx⟩

/-- Parentheses do not change what is expected. -/
lemma expected_group (outcome : Outcome EvalError Bitmap) (h : Expected tests items p outcome) :
    Expected tests items (.group p) outcome := by
  have hp : p ∈ (Formula.group p).children := List.mem_singleton_self p
  cases outcome with
  | aborted fault => exact h.aborted_of_operand hp
  | returned result =>
    cases result with
    | error e => exact h.error_of_operand hp
    | ok bits => exact IsBitmapOf.of_test_eq h fun ask => by rw [test]

/-- The tests of an atom give its bitmap, or end by the fault of one of them. -/
lemma expected_ofTestsNoted (spec : Key → Outcome EvalError Bitmap → Prop) (a : Atom) :
    (ofFault (Bitmap.ofTestsNoted (noted tests a) items).1).Meets spec
      (Expected tests items (.atom a)) := by
  obtain ⟨_, e, _⟩ := Bitmap.ofTestsNoted_cases (tests a) items
  rw [noted, e, Bitmap.ofTests_eq]
  cases h : items.mapM (tests a) with
  | error fault => exact ⟨a, List.mem_singleton_self a, Bitmap.exists_of_mapM_eq_error h⟩
  | ok results =>
    refine ⟨Bitmap.tight_ofBools results, ?_, fun i hi => ?_⟩
    · rw [Bitmap.size_ofBools, Bitmap.length_of_mapM_eq_ok h]
    · rw [Bitmap.contains_ofBools, test]
      exact Bitmap.test_of_mapM_eq_ok h i hi false

namespace Request

variable {spec : Key → Outcome EvalError Bitmap → Prop} {mid post : Outcome EvalError Bitmap → Prop}

/-- What is asked for meets a specification, and ends in a permitted outcome. -/
def Meets (spec : Key → Outcome EvalError Bitmap → Prop) (post : Outcome EvalError Bitmap → Prop) :
    Request → Prop
  | undefined => post (.returned (.error .undefined))
  | constant bits => post (.returned (.ok bits))
  | node key body => (body ()).Meets spec (spec key) ∧ ∀ outcome, spec key outcome → post outcome

/-- A computation that goes on with a bitmap meets a specification when it does so for each bitmap
that is permitted first. -/
lemma Meets.andThen {r : Request} {next : Bitmap → Work} (h : r.Meets spec mid)
    (hfault : ∀ fault, mid (.aborted fault) → post (.aborted fault))
    (herror : ∀ e, mid (.returned (.error e)) → post (.returned (.error e)))
    (hnext : ∀ bits, mid (.returned (.ok bits)) → (next bits).Meets spec post) :
    (r.andThen next).Meets spec post := by
  cases r with
  | undefined => exact herror _ h
  | constant bits => exact hnext bits h
  | node key body =>
    obtain ⟨hbody, hmid⟩ := h
    refine ⟨hbody, fun outcome ho => ?_⟩
    cases outcome with
    | aborted fault => exact hfault fault (hmid _ ho)
    | returned result =>
      cases result with
      | ok shared => exact hnext shared.value (hmid _ ho)
      | error e => exact herror e (hmid _ ho)

/-- A request that meets one expectation meets each weaker one. -/
lemma Meets.imp {r : Request} (h : r.Meets spec mid)
    (hpost : ∀ outcome, mid outcome → post outcome) : r.Meets spec post := by
  cases r with
  | undefined => exact hpost _ h
  | constant bits => exact hpost _ h
  | node key body => exact ⟨h.1, fun outcome ho => hpost _ (h.2 outcome ho)⟩

end Request

/-! ## Evaluation meets its specification -/

variable (tests) (stock : Nat → List α)

/-- What is expected of each key, given the items of the datasets. -/
def expectation (key : Key) : Outcome EvalError Bitmap → Prop :=
  Expected tests (stock key.dataset) key.formula

variable {tests stock} {d : Dataset α}

/-- The operands of a conjunction, from some operand on. -/
lemma meet_meets
    (ih : ∀ p ∈ ps, (request (noted tests) d p).Meets (expectation tests stock)
      (Expected tests d.items p))
    (hs : IsBitmapOf tests d.items (.and qs) sofar) :
    (meet (noted tests) d ps sofar).Meets (expectation tests stock)
      (Expected tests d.items (.and (qs ++ ps))) := by
  -- `sofar` stays the bitmap of the conjunction of the operands before
  induction ps generalizing qs sofar with
  | nil =>
    rw [meet, List.append_nil]
    exact hs
  | cons p ps ihps =>
    have hp : p ∈ (Formula.and (qs ++ p :: ps)).children :=
      List.mem_append_right qs List.mem_cons_self
    rw [meet]
    refine (ih p List.mem_cons_self).andThen (fun _ hf => hf.aborted_of_operand hp)
      (fun _ he => he.error_of_operand hp) (fun bits hbits => ?_)
    obtain ⟨both, hok, hboth⟩ := hs.inter hbits
    have e : qs ++ p :: ps = qs ++ [p] ++ ps := by rw [List.append_assoc, List.singleton_append]
    rw [hok, e]
    dsimp only
    split
    -- the remaining operands are not evaluated, and so cannot end by a fault
    · next he => exact hboth.of_isEmpty he ps
    · exact ihps (fun r hr => ih r (List.mem_cons_of_mem p hr)) hboth

/-- A disjunction of operands that are as expected is as expected: what was found so far is the
bitmap of the disjunction of the operands before. -/
lemma join_meets
    (ih : ∀ p ∈ ps, (request (noted tests) d p).Meets (expectation tests stock)
      (Expected tests d.items p))
    (hs : IsBitmapOf tests d.items (.or qs) sofar) :
    (join (noted tests) d ps sofar).Meets (expectation tests stock)
      (Expected tests d.items (.or (qs ++ ps))) := by
  -- `sofar` stays the bitmap of the disjunction of the operands before
  induction ps generalizing qs sofar with
  | nil =>
    rw [join, List.append_nil]
    exact hs
  | cons p ps ihps =>
    have hp : p ∈ (Formula.or (qs ++ p :: ps)).children :=
      List.mem_append_right qs List.mem_cons_self
    rw [join]
    refine (ih p List.mem_cons_self).andThen (fun _ hf => hf.aborted_of_operand hp)
      (fun _ he => he.error_of_operand hp) (fun bits hbits => ?_)
    obtain ⟨either, hok, heither⟩ := hs.union hbits
    have e : qs ++ p :: ps = qs ++ [p] ++ ps := by rw [List.append_assoc, List.singleton_append]
    rw [hok, e]
    exact ihps (fun r hr => ih r (List.mem_cons_of_mem p hr)) heither

/-- The computation of a node that is kept under its key. -/
lemma node_meets {body : Unit → Work} (hd : stock d.id = d.items)
    (h : (body ()).Meets (expectation tests stock) (Expected tests d.items p)) :
    (Request.node (.of p d.id) body).Meets (expectation tests stock)
      (Expected tests d.items p) := by
  have e : expectation tests stock (.of p d.id) = Expected tests d.items p :=
    congrArg (Expected tests · p) hd
  refine ⟨e ▸ h, fun outcome ho => ?_⟩
  rw [← e]
  exact ho

/-- What it takes to have the bitmap of a formula meets what is expected of it. -/
theorem request_meets (hd : stock d.id = d.items) (p : Formula) :
    (request (noted tests) d p).Meets (expectation tests stock) (Expected tests d.items p) := by
  induction p with
  | top => exact isBitmapOf_full
  | bot => exact isBitmapOf_empty
  | undef => exact .root _
  | atom a => exact node_meets hd (expected_ofTestsNoted _ a)
  | not p ih =>
    have hp : p ∈ (Formula.not p).children := List.mem_singleton_self p
    refine node_meets hd (ih.andThen (fun _ hf => hf.aborted_of_operand hp)
      (fun _ he => he.error_of_operand hp) (fun bits hbits => ?_))
    exact IsBitmapOf.compl hbits
  | and ps ih =>
    have none : IsBitmapOf tests d.items (.and []) (.full d.size) :=
      isBitmapOf_full.of_test_eq fun ask => by rw [test, test, testAll]
    exact node_meets hd (meet_meets ih none)
  | or ps ih =>
    have none : IsBitmapOf tests d.items (.or []) (.empty d.size) :=
      isBitmapOf_empty.of_test_eq fun ask => by rw [test, test, testAny]
    exact node_meets hd (join_meets ih none)
  | group p ih =>
    rw [request]
    exact ih.imp expected_group

end Evaluation

end RuleFormula
