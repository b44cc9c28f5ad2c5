import Mathlib.Data.Char
import Mathlib.Data.String.Basic
import Mathlib.Tactic.SplitIfs
import RuleFormula.Formula.Canonical

/-!
# The canonical order of operands

Operands are sorted by their names, and by the numbers of their atoms where the names are equal.
`NotAfter` says the same with the bytes of the names in UTF-8, and `precedes_iff` shows that both
agree: the encoding keeps the order of characters. The order is total and transitive, so a sorted
list of operands is in order from any operand to any later one, and sorting it again changes
nothing.
-/

namespace RuleFormula

/-! ## Characters and their bytes -/

/-- Of two characters the smaller one has the smaller bytes, whatever follows them. -/
lemma utf8EncodeChar_append_lt {c d : Char} (h : c < d) (xs ys : List UInt8) :
    String.utf8EncodeChar c ++ xs < String.utf8EncodeChar d ++ ys := by
  have lt : c.val.toNat < d.val.toNat := h
  have bound : d.val.toNat < 0x110000 := d.valid.elim (fun h => by omega) (·.2)
  unfold String.utf8EncodeChar
  generalize c.val.toNat = m at lt ⊢
  generalize d.val.toNat = n at lt bound ⊢
  dsimp only
  -- no byte overflows, and the bytes are digits to the base 64
  have bytes : ∀ k, (k % 8 + 240) % 256 = k % 8 + 240 ∧ (k % 64 + 128) % 256 = k % 64 + 128 ∧
      k / 4096 = k / 64 / 64 ∧ k / 262144 = k / 64 / 64 / 64 := by omega
  split_ifs <;>
    simp only [List.cons_append, List.nil_append, List.cons_lt_cons_iff, UInt8.lt_iff_toNat_lt,
      ← UInt8.toNat_inj, UInt8.toNat_ofNat', bytes] <;>
    omega

/-- A text is encoded character by character. -/
lemma toUTF8_eq_flatMap (s : String) :
    s.toUTF8.data.toList = s.toList.flatMap String.utf8EncodeChar := by
  obtain ⟨cs, rfl⟩ := s.exists_eq_ofList
  rw [String.toUTF8_eq_toByteArray, String.toByteArray_ofList, String.toList_ofList]
  exact List.toList_data_toByteArray

/-- The order of texts by characters is the order by their bytes. -/
lemma flatMap_utf8EncodeChar_lt {cs ds : List Char} (h : cs < ds) :
    cs.flatMap String.utf8EncodeChar < ds.flatMap String.utf8EncodeChar := by
  induction cs generalizing ds with
  | nil =>
    cases ds with
    | nil => exact absurd h (lt_irrefl _)
    | cons d ds =>
      obtain ⟨b, bs, e⟩ := List.exists_cons_of_ne_nil (String.utf8EncodeChar_ne_nil (c := d))
      rw [List.flatMap_nil, List.flatMap_cons, e]
      exact List.nil_lt_cons _ _
  | cons c cs ih =>
    cases ds with
    | nil => exact absurd h (List.not_lt_nil _)
    | cons d ds =>
      rw [List.flatMap_cons, List.flatMap_cons]
      obtain lt | ⟨rfl, lt⟩ := List.cons_lt_cons_iff.1 h
      · exact utf8EncodeChar_append_lt lt _ _
      · exact List.append_left_lt (ih lt)

/-- Texts are ordered as their bytes are. -/
lemma toUTF8_lt_iff (s t : String) : s.toUTF8.data.toList < t.toUTF8.data.toList ↔ s < t := by
  rw [toUTF8_eq_flatMap, toUTF8_eq_flatMap, String.lt_iff_toList_lt]
  refine ⟨fun h => ?_, flatMap_utf8EncodeChar_lt⟩
  obtain lt | e | gt := lt_trichotomy s.toList t.toList
  · exact lt
  · rw [e] at h
    exact absurd h (List.lt_irrefl _)
  · exact absurd h (List.lt_asymm (flatMap_utf8EncodeChar_lt gt))

namespace Formula

/-- The bytes of the name in UTF-8. -/
def nameBytes (p : Formula) : List UInt8 := p.name.toUTF8.data.toList

/-- The pair of the bytes of the name and the numbers of the atoms does not come later for `p` than
for `q`. -/
def NotAfter (p q : Formula) : Prop :=
  p.nameBytes < q.nameBytes ∨ p.nameBytes = q.nameBytes ∧ p.leafIds ≤ q.leafIds

/-- Names are compared as texts are. -/
lemma notAfter_iff {p q : Formula} :
    NotAfter p q ↔ p.name < q.name ∨ p.name = q.name ∧ p.leafIds ≤ q.leafIds := by
  rw [NotAfter, nameBytes, nameBytes, toUTF8_lt_iff, Array.toList_inj, ← ByteArray.ext_iff,
    String.toUTF8_eq_toByteArray, String.toUTF8_eq_toByteArray, String.toByteArray_inj]

/-- The order by which operands are sorted is the order by bytes and numbers. -/
lemma precedes_iff {p q : Formula} : precedes p q = true ↔ NotAfter p q := by
  rw [notAfter_iff, precedes, Bool.or_eq_true, Bool.and_eq_true, decide_eq_true_eq,
    Bool.not_eq_true', decide_eq_false_iff_not, not_lt, beq_iff_eq]

/-- Of two formulas, one does not stand after the other. -/
lemma NotAfter.total (p q : Formula) : NotAfter p q ∨ NotAfter q p := by
  rw [notAfter_iff, notAfter_iff]
  obtain lt | e | gt := lt_trichotomy p.name q.name
  · exact .inl (.inl lt)
  · exact (le_total p.leafIds q.leafIds).imp (fun h => .inr ⟨e, h⟩) (fun h => .inr ⟨e.symm, h⟩)
  · exact .inr (.inl gt)

/-- The order is transitive. -/
lemma NotAfter.trans {p q r : Formula} (h : NotAfter p q) (h' : NotAfter q r) : NotAfter p r := by
  rw [notAfter_iff] at h h' ⊢
  obtain lt | ⟨e, le⟩ := h
  · obtain lt' | ⟨e', _⟩ := h'
    · exact .inl (lt.trans lt')
    · exact .inl (e' ▸ lt)
  · obtain lt' | ⟨e', le'⟩ := h'
    · exact .inl (e ▸ lt')
    · exact .inr ⟨e.trans e', le.trans le'⟩

/-- Neither of two formulas stands after the other when the order sees no difference. -/
lemma NotAfter.tie_iff {p q : Formula} :
    NotAfter p q ∧ NotAfter q p ↔ p.name = q.name ∧ p.leafIds = q.leafIds := by
  rw [notAfter_iff, notAfter_iff]
  constructor
  · rintro ⟨lt | ⟨name, le⟩, gt | ⟨name', ge⟩⟩
    · exact absurd lt (lt_asymm gt)
    · exact absurd name' (ne_of_gt lt)
    · exact absurd name (ne_of_gt gt)
    · exact ⟨name, le_antisymm le ge⟩
  · rintro ⟨name, ids⟩
    exact ⟨.inr ⟨name, le_of_eq ids⟩, .inr ⟨name.symm, le_of_eq ids.symm⟩⟩

/-- Operands in canonical order: none stands after a later one in the order of names and numbers. -/
def Sorted (ps : List Formula) : Prop := ps.Pairwise NotAfter

/-- Sorting only changes the order of operands. -/
lemma sortOperands_perm (ps : List Formula) : (sortOperands ps).Perm ps :=
  List.mergeSort_perm ps precedes

/-- Sorting keeps the operands. -/
lemma mem_sortOperands {p : Formula} {ps : List Formula} : p ∈ sortOperands ps ↔ p ∈ ps :=
  (sortOperands_perm ps).mem_iff

/-- Sorting keeps the number of operands. -/
lemma length_sortOperands (ps : List Formula) : (sortOperands ps).length = ps.length :=
  (sortOperands_perm ps).length_eq

@[simp] lemma sortOperands_nil : sortOperands [] = [] := List.mergeSort_nil

@[simp] lemma sortOperands_singleton (p : Formula) : sortOperands [p] = [p] :=
  List.mergeSort_singleton p

/-- The comparison of operands is transitive, as sorting needs it. -/
lemma precedes_trans (p q r : Formula) (h : precedes p q = true) (h' : precedes q r = true) :
    precedes p r = true :=
  precedes_iff.2 ((precedes_iff.1 h).trans (precedes_iff.1 h'))

/-- The comparison of operands is total, as sorting needs it. -/
lemma precedes_total (p q : Formula) : (precedes p q || precedes q p) = true := by
  rw [Bool.or_eq_true, precedes_iff, precedes_iff]
  exact NotAfter.total p q

/-- Sorted operands are in canonical order. -/
lemma sorted_sortOperands (ps : List Formula) : Sorted (sortOperands ps) :=
  (List.pairwise_mergeSort precedes_trans precedes_total ps).imp precedes_iff.1

/-- Operands in canonical order stay where they are when they are sorted. -/
lemma Sorted.sortOperands_eq {ps : List Formula} (h : Sorted ps) : sortOperands ps = ps :=
  List.mergeSort_of_pairwise (h.imp precedes_iff.2)

end Formula

end RuleFormula
