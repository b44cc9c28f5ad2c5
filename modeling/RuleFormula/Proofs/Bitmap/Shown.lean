import RuleFormula.Proofs.Bitmap.Packing

/-!
# The items that a test is shown

The items of a list are tested while their results are packed into words. A test that notes each
item (`watch`) gives the same results as the test alone, and its notes tell which items were tested:
one after the other, each at most once, and all of them unless there is a fault
(`ofTestsNoted_cases`).
-/

namespace RuleFormula

namespace Bitmap

variable {α β γ δ : Type}

/-- The result is the same as without watching. The notes that were made are the first ones of a
list, and all of them unless there is a fault. -/
def Shows (notes : List δ) (p : Watched δ β) (result : Except Fault β) : Prop :=
  ∃ made, (∀ log, p.run.run log = (result, made.reverse ++ log)) ∧ made <+: notes ∧
    ∀ b, result = .ok b → made = notes

/-- A result that is at hand shows no item. -/
lemma shows_ofExcept (result : Except Fault β) :
    Shows ([] : List δ) (MonadExcept.ofExcept result) result :=
  ⟨[], fun _ => by cases result <;> rfl, List.prefix_rfl, fun _ _ => rfl⟩

/-- A watched test notes its item. -/
lemma shows_watch (note : α → δ) (test : α → Except Fault Bool) (x : α) :
    Shows [note x] (watch note test x) (test x) :=
  ⟨[note x], fun _ => rfl, List.prefix_rfl, fun _ _ => rfl⟩

/-- What comes next makes its notes after those that were made, unless there was a fault. -/
lemma Shows.bind {xs ys : List δ} {p : Watched δ β} {result : Except Fault β}
    {next : β → Watched δ γ} {plain : β → Except Fault γ} (h : Shows xs p result)
    (hnext : ∀ b, Shows ys (next b) (plain b)) :
    Shows (xs ++ ys) (p >>= next) (result >>= plain) := by
  obtain ⟨zs, run, pre, all⟩ := h
  cases result with
  | error fault =>
    refine ⟨zs, fun log => ?_, pre.trans (List.prefix_append xs ys), nofun⟩
    rw [ExceptT.run_bind, StateT.run_bind, run]
    rfl
  | ok b =>
    obtain rfl := all b rfl
    obtain ⟨ws, run', pre', all'⟩ := hnext b
    refine ⟨zs ++ ws, fun log => ?_, (List.prefix_append_right_inj zs).2 pre', fun c e => ?_⟩
    · rw [ExceptT.run_bind, StateT.run_bind, run, List.reverse_append, List.append_assoc]
      exact run' _
    · rw [all' c e]

/-- What is done with a result makes no more notes. -/
lemma Shows.map {xs : List δ} {p : Watched δ β} {result : Except Fault β} (h : Shows xs p result)
    (f : β → γ) :
    Shows xs (p >>= fun b => pure (f b)) (result >>= fun b => pure (f b)) := by
  have mapped := h.bind fun b => shows_ofExcept (.ok (f b))
  rwa [List.append_nil] at mapped

/-- The notes of the elements of a list are made one after the other. -/
lemma shows_mapM {part : γ → List δ} {f : γ → Watched δ β} {plain : γ → Except Fault β}
    (h : ∀ x, Shows (part x) (f x) (plain x)) (xs : List γ) :
    Shows (xs.flatMap part) (xs.mapM f) (xs.mapM plain) := by
  induction xs with
  | nil =>
    rw [List.mapM_nil, List.mapM_nil]
    exact shows_ofExcept (.ok [])
  | cons x xs ih =>
    rw [List.mapM_cons, List.mapM_cons, List.flatMap_cons]
    exact (h x).bind fun b => ih.map (b :: ·)

/-- The chunks of a list are the list. -/
lemma flatten_chunks (n : Nat) (xs : List α) : (chunks n xs).flatten = xs := by
  fun_induction chunks n xs with
  | case1 => rfl
  | case2 x xs ih =>
    rw [List.flatten_cons, ih, List.cons_append, List.take_append_drop]

/-- Packing shows the test all items of a list. -/
lemma shows_packWords (note : α → δ) (test : α → Except Fault Bool) (items : List α) :
    Shows (items.map note) (packWords (watch note test) items) (packWords test items) := by
  have chunk (xs : List α) :
      Shows (xs.map note) (xs.mapM (watch note test) >>= fun bits => pure (wordOf bits))
        (xs.mapM test >>= fun bits => pure (wordOf bits)) := by
    have all := shows_mapM (shows_watch note test) xs
    rw [← List.map_eq_flatMap] at all
    exact all.map wordOf
  have all := shows_mapM chunk (chunks 63 items)
  rw [List.flatMap, ← List.map_flatten, flatten_chunks] at all
  exact all

/-- The items that are tested for a bitmap are those that its test is shown. -/
lemma shows_ofTests (note : α → δ) (test : α → Except Fault Bool) (items : List α) :
    Shows (items.map note) (ofTests (watch note test) items) (ofTests test items) := by
  have made := (shows_packWords note test items).bind fun words =>
    shows_ofExcept (ofWords words items.length)
  rw [List.append_nil] at made
  refine cast (congrArg (Shows _ _) ?_) made
  rw [ofTests]
  congr 1
  funext words
  cases ofWords words items.length <;> rfl

/-- The bitmap is the same as without notes. The items are tested one after the other, each at most
once, and all of them unless there is a fault. -/
lemma ofTestsNoted_cases (test : α → Except Fault Bool) (items : List α) :
    ∃ tested, ofTestsNoted (watch Prod.snd fun x => test x.1) items =
        (ofTests test items, tested) ∧
      tested <+: List.range items.length ∧
      ∀ bits, ofTests test items = .ok bits → tested = List.range items.length := by
  have plain : ofTests (fun x : α × Nat => test x.1) items.zipIdx = ofTests test items := by
    have first : (items.zipIdx.map Prod.fst).mapM test = items.zipIdx.mapM fun x => test x.1 :=
      List.mapM_map
    rw [ofTests_eq, ofTests_eq, ← first, List.zipIdx_map_fst]
  have positions : items.zipIdx.map Prod.snd = List.range items.length := by
    rw [List.zipIdx_map_snd, List.range_eq_range']
  obtain ⟨tested, run, pre, all⟩ := shows_ofTests Prod.snd (fun x => test x.1) items.zipIdx
  rw [plain] at run all
  rw [positions] at pre all
  refine ⟨tested, ?_, pre, all⟩
  rw [ofTestsNoted, run, List.append_nil]
  exact congrArg _ tested.reverse_reverse

end Bitmap

end RuleFormula
