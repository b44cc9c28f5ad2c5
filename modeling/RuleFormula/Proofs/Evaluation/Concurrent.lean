import RuleFormula.Evaluation.Threads
import RuleFormula.Proofs.Evaluation.Expected
import RuleFormula.Proofs.Memo.Contracts
import RuleFormula.Proofs.Memo.Sharing

/-!
# Threads compute each node once at a time

An evaluation ends with an error only where the undefined formula is a node of what it evaluates
(`request_errorless`). The formulas that the operations make have no such node but when they are
undefined as a whole, which is found out without the memo. So no computation of an evaluator ends
with an error, and its threads never compute a node twice at one time (`Evaluator.computes_once`).
-/

namespace RuleFormula

open Formula (Constructible IsNodeOf not_isNodeOf_operand)

namespace Evaluation

variable {α : Type} {ask : NotedTests α} {d : Dataset α} {ps : List Formula} {sofar : Bitmap}

/-- An evaluation ends with a bitmap, or by a fault. -/
def NoError (outcome : Outcome EvalError Bitmap) : Prop := ∀ e, outcome ≠ .returned (.error e)

/-- No computation on the way ends with an error. -/
def Request.Errorless (r : Request) : Prop := r.Meets (fun _ => NoError) NoError

/-- A bitmap is no error. -/
lemma noError_ok (bits : Bitmap) : NoError (.returned (.ok bits)) := by
  rintro e ⟨⟩

/-- A fault is no error. -/
lemma noError_aborted (fault : Fault) : NoError (.aborted fault) := by
  rintro e ⟨⟩

/-- What goes on with a request that gives no error gives none, if it does not make one itself. -/
lemma Request.Errorless.andThen {r : Request} {next : Bitmap → Work} (h : r.Errorless)
    (hnext : ∀ bits, (next bits).Meets (fun _ => NoError) NoError) :
    (r.andThen next).Meets (fun _ => NoError) NoError :=
  Request.Meets.andThen h (fun _ hf => hf) (fun _ he => he) (fun bits _ => hnext bits)

/-- A conjunction of operands that give no error gives none: sizes that differ are a fault. -/
lemma meet_noError (ih : ∀ p ∈ ps, (request ask d p).Errorless) :
    (meet ask d ps sofar).Meets (fun _ => NoError) NoError := by
  induction ps generalizing sofar with
  | nil => exact noError_ok sofar
  | cons p ps ihps =>
    rw [meet]
    refine (ih p List.mem_cons_self).andThen fun bits => ?_
    cases sofar.inter bits with
    | error fault => exact noError_aborted fault
    | ok both =>
      dsimp only
      split
      · exact noError_ok both
      · exact ihps fun q hq => ih q (List.mem_cons_of_mem p hq)

/-- A disjunction of operands that give no error gives none. -/
lemma join_noError (ih : ∀ p ∈ ps, (request ask d p).Errorless) :
    (join ask d ps sofar).Meets (fun _ => NoError) NoError := by
  induction ps generalizing sofar with
  | nil => exact noError_ok sofar
  | cons p ps ihps =>
    rw [join]
    refine (ih p List.mem_cons_self).andThen fun bits => ?_
    cases sofar.union bits with
    | error fault => exact noError_aborted fault
    | ok either => exact ihps fun q hq => ih q (List.mem_cons_of_mem p hq)

/-- Where the undefined formula is no node of a formula, no computation on the way to its bitmap
ends with an error. -/
lemma request_errorless {p : Formula} (hp : ¬ IsNodeOf .undef p) :
    (request ask d p).Errorless := by
  induction p with
  | top | bot => exact noError_ok _
  | undef => exact absurd (.root _) hp
  | atom a =>
    refine ⟨?_, fun _ h => h⟩
    show (ofFault (Bitmap.ofTestsNoted (ask a) d.items).1).Meets _ _
    cases (Bitmap.ofTestsNoted (ask a) d.items).1 with
    | ok bits => exact noError_ok bits
    | error fault => exact noError_aborted fault
  | not p ih =>
    have requested := ih (not_isNodeOf_operand hp (List.mem_singleton_self p))
    exact ⟨requested.andThen fun bits => noError_ok bits.compl, fun _ h => h⟩
  | and ps ih => exact ⟨meet_noError fun q hq => ih q hq (not_isNodeOf_operand hp hq), fun _ h => h⟩
  | or ps ih => exact ⟨join_noError fun q hq => ih q hq (not_isNodeOf_operand hp hq), fun _ h => h⟩
  | group p ih =>
    rw [request]
    exact ih (not_isNodeOf_operand hp (List.mem_singleton_self p))

/-- The calls of a task compute no error where its formula can be made. -/
lemma Task.calls_noError {tests : Interpretation α} {t : Task α}
    (made : ∀ p d, t = .test p d → Constructible p) {key : Key} {body : Unit → Work}
    (h : .get key body ∈ t.calls tests) :
    (body ()).Meets (fun _ => NoError) NoError := by
  obtain ⟨p, d, rfl, hr⟩ := Task.request_of_mem_calls h
  have defined : p.isDefined = true := by
    cases p with
    | undef => cases hr
    | top | bot | atom _ | not _ | and _ | or _ | group _ => rfl
  have errorless : (request (noted tests) d p).Errorless :=
    request_errorless ((made p d rfl).not_isNodeOf_undef defined)
  rw [hr] at errorless
  exact errorless.1

end Evaluation

namespace Evaluator

open Evaluation (NoError)

variable {α : Type}

/-- Threads that evaluate formulas over datasets and drop what is remembered never compute a node
twice at one time. When a thread asks for a node that is being computed, it waits for the
computation and shares the bitmap with which this ends. -/
theorem computes_once (tests : Interpretation α) (config : Config)
    (threads : List (List (Evaluation.Task α)))
    (made : ∀ tasks ∈ threads, ∀ p d, .test p d ∈ tasks → Constructible p)
    {s : Machine Evaluation.Key Bitmap EvalError}
    (h : Machine.Reaches ((new config).machine tests threads) s) :
    (∀ key, s.AtMostOneComputing key) ∧
    ∀ i j t u f a, s.threads[i]? = some t → f ∈ t.inside → s.threads[j]? = some u →
      u.asking? = some a → a.key = f.key → s.Shares i f j u a := by
  have calls : ∀ calls ∈ threads.map (·.flatMap (·.calls tests)), ∀ key body,
      .get key body ∈ calls → (body ()).Meets (fun _ => NoError) NoError := by
    intro calls hcalls key body hget
    obtain ⟨tasks, htasks, rfl⟩ := List.mem_map.1 hcalls
    obtain ⟨task, htask, hget⟩ := List.mem_flatMap.1 hget
    exact task.calls_noError (fun p d e => made tasks htasks p d (e ▸ htask)) hget
  have noFailure {s : Machine Evaluation.Key Bitmap EvalError}
      (h : Machine.Reaches ((new config).machine tests threads) s) (key : Evaluation.Key)
      (cell : Nat) : .failed key cell ∉ s.memo.journal := by
    intro failed
    obtain ⟨owners, kept⟩ := Machine.exists_kept calls h
    obtain ⟨e, he⟩ := kept.errors failed
    exact he e rfl
  obtain ⟨owners, delivering⟩ :=
    h.keeps_owners Machine.Delivering.step (Machine.delivering_start _ _ _)
  refine ⟨fun key => delivering.atMostOneComputing (noFailure h key), ?_⟩
  intro i j t u f a hi hf hj ha hk
  exact delivering.shares (fun s' hs' => noFailure (h.trans hs') f.key) hi hf hj ha hk

/-- One thread evaluates an atom, and another one drops what is remembered and evaluates it too. -/
def evenTwice : List (List (Evaluation.Task Nat)) :=
  [[.test (.atom ⟨0, "even", true⟩) ⟨0, [2, 3]⟩],
    [.clear, .test (.atom ⟨0, "even", true⟩) ⟨0, [2, 3]⟩]]

/-- A second thread asks for an atom while the first one computes it. -/
theorem two_threads_share_one_computation :
    (∀ tasks ∈ evenTwice, ∀ p d, .test p d ∈ tasks → Constructible p) ∧
    ∃ (s : Machine Evaluation.Key Bitmap EvalError) (t u : Machine.Thread _ _ _)
      (f : Machine.Frame _ _ _) (a : Machine.Asking _ _ _),
      Machine.Reaches
        ((new ⟨1, 1, by decide⟩).machine (fun _ n => .ok (n % 2 == 0)) evenTwice) s ∧
      s.threads[0]? = some t ∧ f ∈ t.inside ∧ s.threads[1]? = some u ∧ u.asking? = some a ∧
      a.key = f.key ∧ s.Shares 0 f 1 u a := by
  have made : ∀ tasks ∈ evenTwice, ∀ p d, .test p d ∈ tasks → Constructible p := by
    intro tasks htasks p d htask
    simp only [evenTwice, List.mem_cons, List.not_mem_nil, or_false] at htasks
    obtain rfl | rfl := htasks
    · cases List.mem_singleton.1 htask
      exact .atom _
    · cases List.mem_singleton.1 ((List.mem_cons.1 htask).resolve_left nofun)
      exact .atom _
  -- while the first thread computes, the second one drops what is remembered
  have reached : Machine.Reaches
      ((new ⟨1, 1, by decide⟩).machine (fun _ n => .ok (n % 2 == 0)) evenTwice) _ :=
    ⟨[0, 0, 0, 1], rfl⟩
  exact ⟨made, _, _, _, _, _, reached, rfl, List.mem_cons_self, rfl, rfl, rfl,
    (computes_once _ _ _ made reached).2 0 1 _ _ _ _ rfl List.mem_cons_self rfl rfl rfl⟩

end Evaluator

end RuleFormula
