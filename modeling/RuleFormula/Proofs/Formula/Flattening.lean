import RuleFormula.Proofs.Formula.Constructible

/-!
# Operands group by group

Operands that tie in the canonical order keep their own order when they are sorted. So the sorted
list is known from the operands that tie with each one (`sortOperands_eq_iff`), and it is the same
whether operands are sorted at once or group by group before (`sortOperands_flatMap`). That is why a
connective gives one formula for groups that were combined before and for their operands one by one
(`Connective.node_map_node`), whatever the atoms in them are. Parentheses around operands make no
difference either (`Connective.node_map_grouped`).
-/

namespace RuleFormula

namespace Formula

variable {p q r : Formula} {ps qs : List Formula}

/-! ## Operands that tie -/

/-- The canonical order sees no difference between two formulas. -/
def Ties (p q : Formula) : Prop := p.name = q.name ∧ p.leafIds = q.leafIds

instance (p q : Formula) : Decidable (Ties p q) := inferInstanceAs (Decidable (_ ∧ _))

/-- A formula ties with itself. -/
lemma Ties.refl (p : Formula) : Ties p p := ⟨rfl, rfl⟩

/-- Ties go both ways. -/
lemma Ties.symm (h : Ties p q) : Ties q p := ⟨h.1.symm, h.2.symm⟩

/-- Formulas that tie with one formula tie with each other. -/
lemma Ties.trans (h : Ties p q) (h' : Ties q r) : Ties p r := ⟨h.1.trans h'.1, h.2.trans h'.2⟩

/-- Of formulas that tie, none stands after the other. -/
lemma Ties.notAfter (h : Ties p q) : NotAfter p q := (NotAfter.tie_iff.2 h).1

/-- The operands that tie with a formula, in their own order. -/
def tied (p : Formula) (ps : List Formula) : List Formula := ps.filter fun q => Ties p q

/-- The operands that tie with a formula are operands, and tie with it. -/
lemma mem_tied : q ∈ tied p ps ↔ q ∈ ps ∧ Ties p q := by
  rw [tied, List.mem_filter, decide_eq_true_eq]

/-- The first operand is among those that tie with a formula or it is not. -/
lemma tied_cons (p q : Formula) (ps : List Formula) :
    tied p (q :: ps) = if Ties p q then q :: tied p ps else tied p ps := by
  rw [tied, List.filter_cons]
  simp only [decide_eq_true_eq]
  rfl

/-- Operands that tie are in order as they stand. -/
lemma sorted_tied (p : Formula) (ps : List Formula) : Sorted (tied p ps) :=
  List.pairwise_of_forall_mem_list fun _ hq _ hr =>
    ((mem_tied.1 hq).2.symm.trans (mem_tied.1 hr).2).notAfter

/-- Sorting keeps the order of operands that tie. -/
lemma tied_sortOperands (p : Formula) (ps : List Formula) :
    tied p (sortOperands ps) = tied p ps := by
  have sub : (tied p ps).Sublist (sortOperands ps) :=
    List.sublist_mergeSort precedes_trans precedes_total
      ((sorted_tied p ps).imp precedes_iff.2) List.filter_sublist
  have again : tied p (tied p ps) = tied p ps :=
    List.filter_eq_self.2 fun q hq => decide_eq_true (mem_tied.1 hq).2
  have within : (tied p ps).Sublist (tied p (sortOperands ps)) := again ▸ sub.filter _
  exact (within.eq_of_length ((sortOperands_perm ps).filter _).length_eq.symm).symm

/-! ## What sorted operands are known from -/

/-- Lists in which the same operands tie have the same operands. -/
lemma mem_of_tied_eq (h : ∀ r, tied r ps = tied r qs) (hp : p ∈ ps) : p ∈ qs := by
  have found : p ∈ tied p ps := mem_tied.2 ⟨hp, .refl p⟩
  rw [h p] at found
  exact (mem_tied.1 found).1

/-- The first of sorted operands stands after none of them. -/
lemma Sorted.notAfter_of_mem (h : Sorted (q :: qs)) (hp : p ∈ q :: qs) : NotAfter q p := by
  obtain rfl | hp := List.mem_cons.1 hp
  · exact (Ties.refl p).notAfter
  · exact List.rel_of_pairwise_cons h hp

/-- Sorted operands are the same where the operands are that tie with each one. -/
lemma Sorted.eq_of_tied_eq (hp : Sorted ps) (hq : Sorted qs) (h : ∀ r, tied r ps = tied r qs) :
    ps = qs := by
  have h' (r : Formula) := (h r).symm
  induction ps generalizing qs with
  | nil =>
    cases qs with
    | nil => rfl
    | cons q qs => exact absurd (mem_of_tied_eq h' List.mem_cons_self) List.not_mem_nil
  | cons p ps ih =>
    cases qs with
    | nil => exact absurd (mem_of_tied_eq h List.mem_cons_self) List.not_mem_nil
    | cons q qs =>
      -- the first operands tie, as neither stands after the other, and so they are the same
      have tie : Ties p q := NotAfter.tie_iff.1
        ⟨hp.notAfter_of_mem (mem_of_tied_eq h' List.mem_cons_self),
          hq.notAfter_of_mem (mem_of_tied_eq h List.mem_cons_self)⟩
      have heads := h p
      rw [tied_cons, tied_cons, if_pos (.refl p), if_pos tie] at heads
      obtain ⟨rfl, _⟩ := List.cons.inj heads
      have later (r : Formula) : tied r ps = tied r qs := by
        have here := h r
        rw [tied_cons, tied_cons] at here
        split at here
        · exact (List.cons.inj here).2
        · exact here
      rw [ih hp.of_cons hq.of_cons later fun r => (later r).symm]

/-- The sorted operands are known from the operands that tie with each formula. -/
theorem sortOperands_eq_iff :
    sortOperands ps = sortOperands qs ↔ ∀ r, tied r ps = tied r qs := by
  constructor
  · intro h r
    rw [← tied_sortOperands, h, tied_sortOperands]
  · intro h
    refine (sorted_sortOperands ps).eq_of_tied_eq (sorted_sortOperands qs) fun r => ?_
    rw [tied_sortOperands, tied_sortOperands, h]

/-- Groups that were sorted are sorted together as all their operands are. -/
lemma sortOperands_flatMap {α : Type} (f : α → List Formula) (xs : List α) :
    sortOperands (xs.flatMap fun x => sortOperands (f x)) = sortOperands (xs.flatMap f) := by
  refine sortOperands_eq_iff.2 fun r => ?_
  rw [tied, tied, List.filter_flatMap, List.filter_flatMap]
  exact List.flatMap_congr fun x _ => tied_sortOperands r (f x)

end Formula

open Formula

namespace Reading.Connective

variable {o : Connective} {p : Formula} {ps : List Formula} {pss : List (List Formula)}

/-! ## Groups and parentheses -/

/-- What operands combine to has an absorbing part when one of them has. -/
lemma absorbing_mem_parts_node (h : ∀ p ∈ ps, IsNormal p) (hu : undef ∉ ps) :
    o.absorbing ∈ o.parts (o.node ps) ↔ o.absorbing ∈ ps.flatMap o.parts := by
  by_cases ha : o.absorbing ∈ ps.flatMap o.parts
  · rw [node_eq_absorbing hu ha, parts_absorbing]
    exact ⟨fun _ => ha, fun _ => List.mem_singleton_self _⟩
  · rw [parts_node h hu ha, mem_sortOperands]

/-- Groups that were combined are combined to what all their operands give. -/
theorem node_map_node (h : ∀ ps ∈ pss, ∀ p ∈ ps, IsNormal p) :
    o.node (pss.map o.node) = o.node pss.flatten := by
  have undefined : undef ∈ pss.map o.node ↔ undef ∈ pss.flatten := by
    rw [List.mem_map, List.mem_flatten]
    exact exists_congr fun ps => and_congr_right fun hps => node_eq_undef_iff (h ps hps)
  have flat : pss.flatten.flatMap o.parts = pss.flatMap fun ps => ps.flatMap o.parts := by
    rw [← List.flatMap_id, List.flatMap_assoc]
    rfl
  have defined (hu : undef ∉ pss.map o.node) {ps : List Formula} (hps : ps ∈ pss) : undef ∉ ps :=
    fun h => hu (undefined.2 (List.mem_flatten_of_mem hps h))
  refine node_congr undefined (fun hu => ?_) (fun hu ha => ?_)
  · rw [flat, List.flatMap_map, List.mem_flatMap, List.mem_flatMap]
    exact exists_congr fun ps => and_congr_right fun hps =>
      absorbing_mem_parts_node (h ps hps) (defined hu hps)
  · rw [List.flatMap_map] at ha ⊢
    have parts : ∀ ps ∈ pss, o.parts (o.node ps) = sortOperands (ps.flatMap o.parts) := by
      intro ps hps
      have none : o.absorbing ∉ o.parts (o.node ps) :=
        fun h => ha (List.mem_flatMap.2 ⟨ps, hps, h⟩)
      rw [absorbing_mem_parts_node (h ps hps) (defined hu hps)] at none
      exact parts_node (h ps hps) (defined hu hps) none
    rw [flat, List.flatMap_congr parts, sortOperands_flatMap]

/-- An operand may be combined alone before it is combined with others. -/
lemma node_map_alone (h : ∀ p ∈ ps, IsNormal p) :
    o.node (ps.map fun p => o.node [p]) = o.node ps := by
  have groups : ∀ qs ∈ ps.map fun p => [p], ∀ q ∈ qs, IsNormal q :=
    List.forall_mem_map.2 fun p hp => List.forall_mem_singleton.2 (h p hp)
  have alone := @node_map_node o _ groups
  rw [List.map_map, ← List.flatMap_def, List.flatMap_singleton'] at alone
  exact alone

/-- One operand that was combined before is as good as its own operands. -/
lemma node_combine (hp : IsNormal p) (h : ∀ q ∈ ps, IsNormal q) :
    o.node [o.combine p ps] = o.node (p :: ps) := by
  cases ps with
  | nil => rfl
  | cons p' ps =>
    have group := @node_map_node o [p :: p' :: ps] <|
      List.forall_mem_singleton.2 (List.forall_mem_cons.2 ⟨hp, h⟩)
    rw [List.flatten_singleton] at group
    exact group

/-- Operands that are combined of others, or are one alone, give what all of these give. -/
theorem node_map_combine {groups : List (Formula × List Formula)}
    (h : ∀ g ∈ groups, ∀ p ∈ g.1 :: g.2, IsNormal p) :
    o.node (groups.map fun g => o.combine g.1 g.2) =
      o.node (groups.flatMap fun g => g.1 :: g.2) := by
  have first : ∀ g ∈ groups, IsNormal g.1 := fun g hg => h g hg _ List.mem_cons_self
  have further : ∀ g ∈ groups, ∀ p ∈ g.2, IsNormal p :=
    fun g hg p hp => h g hg p (List.mem_cons_of_mem _ hp)
  have combined : ∀ p ∈ groups.map fun g => o.combine g.1 g.2, IsNormal p :=
    List.forall_mem_map.2 fun g hg => o.combine_kept isNormal_kept (first g hg) (further g hg)
  rw [← node_map_alone combined, List.map_map]
  calc o.node (groups.map fun g => o.node [o.combine g.1 g.2])
    _ = o.node (groups.map fun g => o.node (g.1 :: g.2)) := congrArg o.node <|
      List.map_congr_left fun g hg => node_combine (first g hg) (further g hg)
    _ = o.node ((groups.map fun g => g.1 :: g.2).map o.node) := by rw [List.map_map]; rfl
    _ = o.node (groups.flatMap fun g => g.1 :: g.2) := node_map_node (List.forall_mem_map.2 h)

/-- Parentheses do not change what an operand gives. -/
lemma parts_grouped (o : Connective) (p : Formula) : o.parts p.grouped = o.parts p := by
  cases o <;> cases p <;> rfl

/-- Parentheses around operands make no difference. -/
lemma node_map_grouped (o : Connective) (ps : List Formula) :
    o.node (ps.map grouped) = o.node ps := by
  have undefined : undef ∈ ps.map grouped ↔ undef ∈ ps := by
    rw [List.mem_map]
    constructor
    · rintro ⟨p, hp, e⟩
      cases p with
      | undef => exact hp
      | _ => cases e
    · exact fun h => ⟨undef, h, rfl⟩
  have parts : (ps.map grouped).flatMap o.parts = ps.flatMap o.parts := by
    rw [List.flatMap_map]
    exact List.flatMap_congr fun p _ => o.parts_grouped p
  exact node_congr undefined (fun _ => parts ▸ Iff.rfl) (fun _ _ => parts ▸ rfl)

end Reading.Connective

end RuleFormula
