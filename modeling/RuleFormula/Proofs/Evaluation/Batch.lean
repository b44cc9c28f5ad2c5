import RuleFormula.Evaluation.Evaluator
import RuleFormula.Evaluation.Threads
import RuleFormula.Proofs.Evaluation.Expected

/-!
# Evaluating over a dataset agrees with testing item by item

An evaluator may have done any tasks before: they may have been about other formulas and datasets,
may have ended by faults in the middle of a computation, and may have pushed out or dropped results.
All that it remembers is sound (`after_keeps`), so an evaluation that gives a bitmap gives the truth
values of the formula on the items, and it does give one where no test of an atom faults
(`test_agrees_with_items`).
-/

namespace RuleFormula

namespace Evaluation

variable {α : Type}

/-- How an evaluation ended, with the bitmap alone. -/
def bitsOf : Outcome EvalError Evaluated → Outcome EvalError Bitmap
  | .returned result => .returned (result.map (·.bits))
  | .aborted fault => .aborted fault

/-- The answer to a request is as expected and keeps a memo sound. -/
lemma Request.Meets.keeps {spec : Key → Outcome EvalError Bitmap → Prop}
    {post : Outcome EvalError Bitmap → Prop} {r : Request} (h : r.Meets spec post) :
    Memo.Keeps (Suits spec) r.answer (fun outcome => post (bitsOf outcome)) := by
  intro owners m hm
  cases r with
  | undefined => exact ⟨h, [], (List.append_nil owners).symm ▸ hm⟩
  | constant bits => exact ⟨h, [], (List.append_nil owners).symm ▸ hm⟩
  | node key body =>
    obtain ⟨hbody, hpost⟩ := h
    obtain ⟨ho, hm'⟩ := Memo.Keeps.getWith hbody.keeps owners m hm
    have ho := hpost _ ho
    rw [answer, Memo.get]
    dsimp only at ho hm'
    generalize m.getWith key (body ()).run = ended at ho hm'
    obtain ⟨outcome, m'⟩ := ended
    cases outcome with
    | aborted fault => exact ⟨ho, hm'⟩
    | returned result =>
      cases result with
      | ok shared => exact ⟨ho, hm'⟩
      | error e => exact ⟨ho, hm'⟩

/-- The dataset that a task evaluates over. -/
def Task.dataset? : Task α → Option (Dataset α)
  | test _ d => some d
  | clear => none

/-- Datasets with the same identity have the same items. -/
def Coherent (ds : List (Dataset α)) : Prop :=
  ∀ d ∈ ds, ∀ d' ∈ ds, d.id = d'.id → d.items = d'.items

/-- The items of datasets can be told from their identities. -/
lemma Coherent.exists_stock {ds : List (Dataset α)} (h : Coherent ds) :
    ∃ stock : Nat → List α, ∀ d ∈ ds, stock d.id = d.items := by
  refine ⟨fun id => ((ds.find? (·.id == id)).map (·.items)).getD [], fun d hd => ?_⟩
  obtain ⟨d', hd'⟩ : ∃ d', ds.find? (·.id == d.id) = some d' :=
    Option.isSome_iff_exists.1 (List.find?_isSome.2 ⟨d, hd, beq_self_eq_true _⟩)
  have hid : (d'.id == d.id) = true := by simpa using List.find?_some hd'
  dsimp only
  rw [hd', Option.map_some, Option.getD_some]
  exact h d' (List.mem_of_find?_eq_some hd') d hd (beq_iff_eq.1 hid)

end Evaluation

namespace Evaluator

open Formula (Constructible IsNodeOf)
open Evaluation (Expected Coherent expectation bitsOf request_meets)

variable {α : Type} {tests : Interpretation α}

/-- The evaluator after a task, however the task ended. -/
def perform (tests : Interpretation α) (e : Evaluator) : Evaluation.Task α → Evaluator
  | .test p d => (e.test tests p d).2
  | .clear => e.clear

/-- The evaluator after tasks done one after the other. -/
def after (tests : Interpretation α) (e : Evaluator) (tasks : List (Evaluation.Task α)) :
    Evaluator :=
  tasks.foldl (perform tests) e

variable {stock : Nat → List α} {owners : List Evaluation.Key} {e : Evaluator}

/-- An evaluation ends as it should, and leaves a memo whose cells hold what they should. -/
lemma test_keeps {d : Dataset α} (hd : stock d.id = d.items) (p : Formula)
    (he : Memo.Sound (Suits (expectation tests stock)) owners e.memo) :
    Expected tests d.items p (bitsOf (e.test tests p d).1) ∧
      ∃ more, Memo.Sound (Suits (expectation tests stock)) (owners ++ more)
        (e.test tests p d).2.memo :=
  (request_meets hd p).keeps owners e.memo he

/-- Tasks, one after the other, leave a memo whose cells hold what they should. -/
lemma after_keeps {tasks : List (Evaluation.Task α)}
    (hd : ∀ t ∈ tasks, ∀ d, t.dataset? = some d → stock d.id = d.items)
    (he : Memo.Sound (Suits (expectation tests stock)) owners e.memo) :
    ∃ more, Memo.Sound (Suits (expectation tests stock)) (owners ++ more)
      (e.after tests tasks).memo := by
  induction tasks generalizing e owners with
  | nil => exact ⟨[], (List.append_nil owners).symm ▸ he⟩
  | cons t tasks ih =>
    obtain ⟨more, he'⟩ : ∃ more, Memo.Sound (Suits (expectation tests stock)) (owners ++ more)
        (e.perform tests t).memo := by
      cases t with
      | test p d => exact (test_keeps (hd _ List.mem_cons_self d rfl) p he).2
      | clear => exact ⟨[], (List.append_nil owners).symm ▸
          he.of_value?_eq he.toOwned.clear fun _ => rfl⟩
    obtain ⟨more', he''⟩ := ih (fun t' ht' => hd t' (List.mem_cons_of_mem t ht')) he'
    exact ⟨more ++ more', List.append_assoc owners more more' ▸ he''⟩

/-- After any tasks, an evaluation that gives a bitmap gives the truth value of the formula on each
item, and all of them come to an end; and it gives a bitmap where no test of an atom of the formula
faults on an item. -/
theorem test_agrees_with_items (tests : Interpretation α) (config : Config)
    (tasks : List (Evaluation.Task α)) {p : Formula} {d : Dataset α} (hp : Constructible p)
    (hdef : p.isDefined = true) (hc : Coherent (d :: tasks.filterMap (·.dataset?))) :
    (∀ result e, ((new config).after tests tasks).test tests p d = (.returned (.ok result), e) →
      result.bits.size = d.size ∧
      ∀ i (hi : i < d.items.length),
        p.test (fun a => tests a d.items[i]) = .ok (result.bits.contains i)) ∧
    ((∀ a ∈ p.leaves, ∀ x ∈ d.items, ∃ holds, tests a x = .ok holds) →
      ∃ result e, ((new config).after tests tasks).test tests p d =
        (.returned (.ok result), e)) := by
  -- the keys of the memo hold identities only, so items are looked up by identity
  obtain ⟨stock, hstock⟩ := hc.exists_stock
  have before : ∀ t ∈ tasks, ∀ d, t.dataset? = some d → stock d.id = d.items :=
    fun t ht d hd => hstock d (List.mem_cons_of_mem _ (List.mem_filterMap.2 ⟨t, ht, hd⟩))
  have start : Memo.Sound (Suits (expectation tests stock)) [] (new config).memo :=
    .new config.capacity config.capacity_pos
  obtain ⟨more, sound⟩ := after_keeps before start
  have expected := (test_keeps (hstock d List.mem_cons_self) p sound).1
  generalize ((new config).after tests tasks).test tests p d = ended at expected
  obtain ⟨outcome, e⟩ := ended
  constructor
  · rintro result _ ⟨⟩
    exact ⟨expected.size_eq, expected.test_eq⟩
  · intro noFault
    cases outcome with
    | aborted fault =>
      obtain ⟨a, ha, x, hx, hf⟩ := expected
      obtain ⟨holds, hok⟩ := noFault a ha x hx
      rw [hf] at hok
      cases hok
    | returned result =>
      cases result with
      | ok result => exact ⟨result, e, rfl⟩
      | error err => exact absurd expected (hp.not_isNodeOf_undef hdef)

/-- The atom with the number 0 holds of even numbers, and the test of every other atom faults. -/
def evenOnly : Interpretation Nat := fun a n =>
  if a.id = 0 then .ok (n % 2 == 0) else .error (.raised "boom")

/-- An evaluation after a task whose test faults, of a dataset that was made again in between. -/
theorem test_agrees_after_fault :
    Constructible (Formula.atom ⟨0, "even", true⟩).negate ∧
    (Formula.atom ⟨0, "even", true⟩).negate.isDefined = true ∧
    Coherent [(⟨0, [2, 3]⟩ : Dataset Nat), ⟨0, [2, 3]⟩] ∧
    ∃ result e, ((new ⟨1, 1, by decide⟩).after evenOnly
        [.test (.atom ⟨1, "boom", true⟩) ⟨0, [2, 3]⟩, .clear]).test evenOnly
        (Formula.atom ⟨0, "even", true⟩).negate ⟨0, [2, 3]⟩ = (.returned (.ok result), e) := by
  have made : Constructible (Formula.atom ⟨0, "even", true⟩).negate := .negate (.atom _)
  have coherent : Coherent [(⟨0, [2, 3]⟩ : Dataset Nat), ⟨0, [2, 3]⟩] := by
    unfold Coherent
    decide
  refine ⟨made, rfl, coherent, ?_⟩
  refine (test_agrees_with_items evenOnly _ _ made rfl coherent).2 (fun a ha x _ => ?_)
  obtain rfl := List.mem_singleton.1 ha
  exact ⟨x % 2 == 0, rfl⟩

end Evaluator

end RuleFormula
