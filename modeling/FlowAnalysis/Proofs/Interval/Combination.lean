import FlowAnalysis.Interval.Refine
import FlowAnalysis.Proofs.Interval.Sets
import FlowAnalysis.Proofs.Store

/-!
Refinements as sets of valuations. A valuation gives every identifier a double, infinities included, and a refinement
stands for the valuations that lie in all its ranges, where an identifier that it does not mention has top for its range.
If no range is bottom, every double of every range occurs in some valuation, so that one refinement stands for fewer
valuations than another exactly if each of its ranges is below that of the other. Conjunction then meets the ranges of
each identifier, where the first meet that is bottom ends the loop, and disjunction joins them.
-/

namespace FlowAnalysis

namespace Interval

variable {a b : Interval} {x : Double}

/-- Whether both bounds are ones that doubles can have. -/
def isRounded (a : Interval) : Bool :=
  (Double.number a.lower).isRounded && (Double.number a.upper).isRounded

theorem isRounded_iff : a.isRounded = true ↔
    (Double.number a.lower).isRounded = true ∧ (Double.number a.upper).isRounded = true :=
  Bool.and_eq_true_iff

theorem holds_lower (h : a.isBottom = false) : a.holds (.number a.lower) = true :=
  holds_eq_true_iff.2 ⟨a.lower, rfl, contains_iff.2 ⟨le_refl _, (isBottom_eq_false_iff.1 h).1⟩⟩

theorem holds_of_le (hle : a.le b = true) (h : a.holds x = true) : b.holds x = true := by
  obtain ⟨v, hv, hcontains⟩ := holds_eq_true_iff.1 h
  exact holds_eq_true_iff.2 ⟨v, hv, contains_of_le hle hcontains⟩

theorem isBottom_eq_false_of_holds (h : a.holds x = true) : a.isBottom = false := by
  obtain ⟨v, -, hcontains⟩ := holds_eq_true_iff.1 h
  exact isBottom_eq_false_of_contains hcontains

/-- Between intervals that end at doubles the order is inclusion of the doubles. -/
theorem le_of_forall_holds (ha : a.isRounded = true)
    (h : ∀ x : Double, x.isRounded = true → a.holds x = true → b.holds x = true) : a.le b = true := by
  obtain ⟨hlower, hupper⟩ := isRounded_iff.1 ha
  have hends : ofDoubles (.number a.lower) (.number a.upper) = a := of_eq a.canonical
  have hle := le_iff_forall_holds hlower hupper (b := b)
  rw [hends] at hle
  exact hle.2 h

theorem isRounded_meet (ha : a.isRounded = true) (hb : b.isRounded = true)
    (h : (a.meet b).isBottom = false) : (a.meet b).isRounded = true := by
  rw [isRounded_iff] at ha hb ⊢
  rw [(meet_bounds h).1, (meet_bounds h).2]
  exact ⟨max_rec' (fun v => (Double.number v).isRounded = true) ha.1 hb.1,
    min_rec' (fun v => (Double.number v).isRounded = true) ha.2 hb.2⟩

theorem isRounded_join (ha : a.isRounded = true) (hb : b.isRounded = true) : (a.join b).isRounded = true := by
  rw [isRounded_iff] at ha hb ⊢
  rw [(join_bounds a b).1, (join_bounds a b).2]
  exact ⟨min_rec' (fun v => (Double.number v).isRounded = true) ha.1 hb.1,
    max_rec' (fun v => (Double.number v).isRounded = true) ha.2 hb.2⟩

end Interval

namespace Refinement

/-- A double for every identifier. -/
structure DoubleValuation where
  value : Identifier → Double
  isRounded : ∀ x, (value x).isRounded = true

variable {a b c : Refinement} {ranges left right : OrderedMap Identifier Interval} {x : Identifier} {v : DoubleValuation}

def rangeOf (ranges : OrderedMap Identifier Interval) (x : Identifier) : Interval := (ranges.get? x).getD .top

/-- The valuations inside all ranges. -/
def valuations : Refinement → Set DoubleValuation
  | infeasible => ∅
  | constrain ranges => {v | ∀ x, (rangeOf ranges x).holds (v.value x) = true}

/-- No range is bottom, and all end at doubles. -/
def Proper : Refinement → Prop
  | infeasible => True
  | constrain ranges => ∀ range ∈ ranges.values, range.isBottom = false ∧ range.isRounded = true

instance : DecidablePred Proper
  | infeasible => inferInstanceAs (Decidable True)
  | constrain ranges =>
    inferInstanceAs (Decidable (∀ range ∈ ranges.values, range.isBottom = false ∧ range.isRounded = true))

theorem mem_valuations : v ∈ (constrain ranges).valuations ↔ ∀ x, (rangeOf ranges x).holds (v.value x) = true :=
  Iff.rfl

theorem Proper.of_get? {range : Interval} (h : (constrain ranges).Proper) (hget : ranges.get? x = some range) :
    range.isBottom = false ∧ range.isRounded = true :=
  h range (OrderedMap.mem_values_iff.2 ⟨x, hget⟩)

theorem Proper.rangeOf (h : (constrain ranges).Proper) (x : Identifier) :
    (rangeOf ranges x).isBottom = false ∧ (rangeOf ranges x).isRounded = true := by
  unfold Refinement.rangeOf
  cases hget : ranges.get? x with
  | none => exact ⟨rfl, rfl⟩
  | some range => exact h.of_get? hget

theorem proper_of_get?
    (h : ∀ x range, ranges.get? x = some range → range.isBottom = false ∧ range.isRounded = true) :
    (constrain ranges).Proper := by
  intro range hrange
  obtain ⟨x, hget⟩ := OrderedMap.mem_values_iff.1 hrange
  exact h x range hget

/-- Each double of a range occurs in a valuation: the other identifiers are put at the lower ends of theirs. -/
theorem exists_valuation (h : (constrain ranges).Proper) {d : Double} (hd : d.isRounded = true)
    (hx : (rangeOf ranges x).holds d = true) : ∃ v ∈ (constrain ranges).valuations, v.value x = d := by
  refine ⟨⟨fun y => if y = x then d else .number (rangeOf ranges y).lower, fun y => ?_⟩, fun y => ?_, if_pos rfl⟩
  · split
    · exact hd
    · exact (Interval.isRounded_iff.1 (h.rangeOf y).2).1
  · dsimp only
    split
    · rename_i hy
      exact hy ▸ hx
    · exact Interval.holds_lower (h.rangeOf y).1

theorem nonempty_valuations (h : (constrain ranges).Proper) : (constrain ranges).valuations.Nonempty :=
  ⟨⟨fun y => .number (rangeOf ranges y).lower, fun y => (Interval.isRounded_iff.1 (h.rangeOf y).2).1⟩,
    fun y => Interval.holds_lower (h.rangeOf y).1⟩

/-- Fewer valuations means smaller ranges. -/
theorem valuations_subset_iff (h : (constrain left).Proper) :
    (constrain left).valuations ⊆ (constrain right).valuations ↔
      ∀ x, (rangeOf left x).le (rangeOf right x) = true := by
  constructor
  · intro hsubset x
    refine Interval.le_of_forall_holds (h.rangeOf x).2 fun d hd hx => ?_
    obtain ⟨v, hv, rfl⟩ := exists_valuation h hd hx
    exact hsubset hv x
  · exact fun hle v hv x => Interval.holds_of_le (hle x) (hv x)

/-! ### Conjunction -/

theorem holds_top_of_holds {range : Interval} {d : Double} (h : range.holds d = true) : Interval.top.holds d = true :=
  Interval.holds_of_le (Interval.le_of_isTop rfl) h

/-- The range that a further one leaves to an identifier. -/
def narrowed (ranges : OrderedMap Identifier Interval) (x : Identifier) (range : Interval) : Interval :=
  match ranges.get? x with
  | some existing => existing.meet range
  | none => range

theorem narrow_cons (ranges : OrderedMap Identifier Interval) (x : Identifier) (range : Interval)
    (rest : List (Identifier × Interval)) :
    narrow ranges ((x, range) :: rest) =
      if (narrowed ranges x range).isBottom then infeasible
      else narrow (ranges.insert x (narrowed ranges x range)) rest :=
  rfl

theorem holds_narrowed {range : Interval} {d : Double} :
    (narrowed ranges x range).holds d = true ↔ (rangeOf ranges x).holds d = true ∧ range.holds d = true := by
  unfold narrowed rangeOf
  cases ranges.get? x with
  | none => exact ⟨fun h => ⟨holds_top_of_holds h, h⟩, And.right⟩
  | some existing => exact Interval.holds_meet

theorem rangeOf_insert (ranges : OrderedMap Identifier Interval) (x y : Identifier) (range : Interval) :
    rangeOf (ranges.insert x range) y = if y = x then range else rangeOf ranges y := by
  rw [rangeOf, OrderedMap.get?_insert]
  split <;> rfl

theorem mem_valuations_insert {range : Interval} :
    v ∈ (constrain (ranges.insert x (narrowed ranges x range))).valuations ↔
      v ∈ (constrain ranges).valuations ∧ range.holds (v.value x) = true := by
  simp only [mem_valuations, rangeOf_insert]
  constructor
  · intro h
    have hx := h x
    rw [if_pos rfl, holds_narrowed] at hx
    refine ⟨fun y => ?_, hx.2⟩
    have hy := h y
    split at hy
    · rename_i heq
      exact heq ▸ hx.1
    · exact hy
  · rintro ⟨h, hrange⟩ y
    split
    · rename_i heq
      subst heq
      exact holds_narrowed.2 ⟨h y, hrange⟩
    · exact h y

/-- Further ranges, one after another, keep the valuations that lie in all of them. -/
theorem mem_valuations_narrow {rest : List (Identifier × Interval)} :
    v ∈ (narrow ranges rest).valuations ↔
      v ∈ (constrain ranges).valuations ∧ ∀ entry ∈ rest, entry.2.holds (v.value entry.1) = true := by
  induction rest generalizing ranges with
  | nil => simp [narrow]
  | cons entry rest ih =>
      obtain ⟨x, range⟩ := entry
      rw [narrow_cons, List.forall_mem_cons]
      split
      · -- a bottom range ends the loop, and no valuation lies in both ranges
        rename_i hbottom
        refine iff_of_false id fun ⟨hv, hrange, _⟩ => ?_
        have hholds := holds_narrowed.2 ⟨hv x, hrange⟩
        rw [Interval.isBottom_eq_false_of_holds hholds] at hbottom
        cases hbottom
      · rw [ih, mem_valuations_insert, and_assoc]

theorem proper_narrow {rest : List (Identifier × Interval)} (h : (constrain ranges).Proper)
    (hrest : ∀ entry ∈ rest, entry.2.isRounded = true) : (narrow ranges rest).Proper := by
  induction rest generalizing ranges with
  | nil => exact h
  | cons entry rest ih =>
      obtain ⟨x, range⟩ := entry
      obtain ⟨hrange, hrest⟩ := List.forall_mem_cons.1 hrest
      rw [narrow_cons]
      split
      · trivial
      · rename_i hproper
        rw [Bool.not_eq_true] at hproper
        refine ih (proper_of_get? fun y range' hget => ?_) hrest
        rw [OrderedMap.get?_insert] at hget
        split at hget
        · obtain rfl := Option.some.inj hget
          refine ⟨hproper, ?_⟩
          unfold narrowed at hproper ⊢
          cases hexisting : ranges.get? x with
          | none => exact hrange
          | some existing =>
              rw [hexisting] at hproper
              exact Interval.isRounded_meet (h.of_get? hexisting).2 hrange hproper
        · exact h.of_get? hget

/-- Among valuations by numbers, what is not mentioned can be left out. -/
theorem mem_valuations_iff_entries (hv : v ∈ (constrain left).valuations) :
    v ∈ (constrain right).valuations ↔ ∀ entry ∈ right.entries, entry.2.holds (v.value entry.1) = true := by
  constructor
  · rintro h ⟨x, range⟩ hentry
    have hx := h x
    rwa [rangeOf, OrderedMap.mem_entries_iff.1 hentry] at hx
  · intro h x
    unfold rangeOf
    cases hget : right.get? x with
    | none => exact holds_top_of_holds (hv x)
    | some range => exact h (x, range) (OrderedMap.mem_entries_iff.2 hget)

theorem valuations_and (a b : Refinement) : (a.and b).valuations = a.valuations ∩ b.valuations := by
  cases a with
  | infeasible => exact (Set.empty_inter _).symm
  | constrain left =>
      cases b with
      | infeasible => exact (Set.inter_empty _).symm
      | constrain right =>
          ext v
          rw [and, mem_valuations_narrow, Set.mem_inter_iff]
          exact and_congr_right fun hv => (mem_valuations_iff_entries hv).symm

theorem proper_and (ha : a.Proper) (hb : b.Proper) : (a.and b).Proper := by
  cases a with
  | infeasible => trivial
  | constrain left =>
      cases b with
      | infeasible => trivial
      | constrain right =>
          exact proper_narrow ha fun entry hentry => (hb.of_get? (OrderedMap.mem_entries_iff.1 hentry)).2

theorem eq_infeasible_iff (ha : a.Proper) : a = infeasible ↔ a.valuations = ∅ := by
  cases a with
  | infeasible => exact iff_of_true rfl rfl
  | constrain ranges =>
      refine iff_of_false (fun h => by cases h) fun hempty => ?_
      exact (nonempty_valuations ha).ne_empty hempty

/-! ### Disjunction -/

theorem top_join (range : Interval) : Interval.top.join range = .top :=
  Interval.le_antisymm (Interval.le_of_isTop rfl) (Interval.le_join_left _ _)

/-- A disjunction joins the ranges of each identifier: what one side does not mention has top for its range. -/
theorem rangeOf_filterMap (left right : OrderedMap Identifier Interval) (x : Identifier) :
    rangeOf (left.filterMap fun x range => (right.get? x).map range.join) x =
      (rangeOf left x).join (rangeOf right x) := by
  rw [rangeOf, OrderedMap.get?_filterMap, rangeOf, rangeOf]
  cases left.get? x with
  | none => exact (top_join _).symm
  | some range =>
      cases right.get? x with
      | none =>
          rw [Interval.join_comm]
          exact (top_join _).symm
      | some other => rfl

theorem proper_or (ha : a.Proper) (hb : b.Proper) : (a.or b).Proper := by
  cases a with
  | infeasible => exact hb
  | constrain left =>
      cases b with
      | infeasible => exact ha
      | constrain right =>
          refine proper_of_get? fun x range hget => ?_
          have hrange := rangeOf_filterMap left right x
          rw [rangeOf, hget] at hrange
          obtain rfl : range = _ := hrange
          exact ⟨Interval.isBottom_eq_false_of_le (Interval.le_join_left _ _) (ha.rangeOf x).1,
            Interval.isRounded_join (ha.rangeOf x).2 (hb.rangeOf x).2⟩

/-- A disjunction has as few valuations as the valuations of both sides allow. -/
theorem valuations_or_subset_iff (ha : a.Proper) (hb : b.Proper) :
    (a.or b).valuations ⊆ c.valuations ↔ a.valuations ⊆ c.valuations ∧ b.valuations ⊆ c.valuations := by
  cases a with
  | infeasible => exact ⟨fun h => ⟨Set.empty_subset _, h⟩, And.right⟩
  | constrain left =>
      cases b with
      | infeasible => exact ⟨fun h => ⟨h, Set.empty_subset _⟩, And.left⟩
      | constrain right =>
          have hor : ((constrain left).or (constrain right)).Proper := proper_or ha hb
          cases c with
          | infeasible =>
              have hnone : ∀ {ranges}, (constrain ranges).Proper → ¬ (constrain ranges).valuations ⊆ ∅ :=
                fun h hsubset => (nonempty_valuations h).ne_empty (Set.subset_empty_iff.1 hsubset)
              exact iff_of_false (hnone hor) fun h => hnone ha h.1
          | constrain ranges =>
              rw [or, valuations_subset_iff hor, valuations_subset_iff ha, valuations_subset_iff hb, ← forall_and]
              refine forall_congr' fun x => ?_
              rw [rangeOf_filterMap]
              exact sup_le_iff (α := Interval)

theorem subset_valuations_or (ha : a.Proper) (hb : b.Proper) :
    a.valuations ⊆ (a.or b).valuations ∧ b.valuations ⊆ (a.or b).valuations :=
  (valuations_or_subset_iff ha hb).1 (Set.Subset.refl _)

theorem valuations_or_comm (ha : a.Proper) (hb : b.Proper) : (a.or b).valuations = (b.or a).valuations :=
  Set.Subset.antisymm ((valuations_or_subset_iff ha hb).2 (subset_valuations_or hb ha).symm)
    ((valuations_or_subset_iff hb ha).2 (subset_valuations_or ha hb).symm)

theorem valuations_or_assoc (ha : a.Proper) (hb : b.Proper) (hc : c.Proper) :
    ((a.or b).or c).valuations = (a.or (b.or c)).valuations := by
  have hab := proper_or ha hb
  have hbc := proper_or hb hc
  apply Set.Subset.antisymm
  · obtain ⟨haright, hright⟩ := subset_valuations_or ha hbc
    obtain ⟨hbright, hcright⟩ := (valuations_or_subset_iff hb hc).1 hright
    rw [valuations_or_subset_iff hab hc, valuations_or_subset_iff ha hb]
    exact ⟨⟨haright, hbright⟩, hcright⟩
  · obtain ⟨hleft, hcleft⟩ := subset_valuations_or hab hc
    obtain ⟨haleft, hbleft⟩ := (valuations_or_subset_iff ha hb).1 hleft
    rw [valuations_or_subset_iff ha hbc, valuations_or_subset_iff hb hc]
    exact ⟨haleft, hbleft, hcleft⟩

/-- Combinations of refinements are exact. A conjunction has the valuations of both sides and is infeasible exactly if
there are none; a disjunction has the fewest valuations that a refinement with those of both sides can have. Neither
has a range that is bottom, and the order and grouping of what is combined do not matter. -/
theorem combination_exact (ha : a.Proper) (hb : b.Proper) (hc : c.Proper) :
    ((a.and b).Proper ∧ (a.and b).valuations = a.valuations ∩ b.valuations ∧
      (a.and b = infeasible ↔ a.valuations ∩ b.valuations = ∅)) ∧
    ((a.or b).Proper ∧ IsLeast {s | (∃ r : Refinement, r.Proper ∧ r.valuations = s) ∧
      a.valuations ⊆ s ∧ b.valuations ⊆ s} (a.or b).valuations) ∧
    ((a.and b).valuations = (b.and a).valuations ∧
      ((a.and b).and c).valuations = (a.and (b.and c)).valuations) ∧
    (a.or b).valuations = (b.or a).valuations ∧
      ((a.or b).or c).valuations = (a.or (b.or c)).valuations := by
  have hand := proper_and ha hb
  have hor := proper_or ha hb
  refine ⟨⟨hand, valuations_and a b, ?_⟩, ⟨hor, ⟨⟨a.or b, hor, rfl⟩, subset_valuations_or ha hb⟩, ?_⟩,
    ⟨?_, ?_⟩, valuations_or_comm ha hb, valuations_or_assoc ha hb hc⟩
  · rw [eq_infeasible_iff hand, valuations_and]
  · rintro s ⟨⟨r, -, rfl⟩, hsubset⟩
    exact (valuations_or_subset_iff ha hb).2 hsubset
  · rw [valuations_and, valuations_and, Set.inter_comm]
  · simp only [valuations_and, Set.inter_assoc]

/-- Ranges of `n` that touch at five, beside a range of `x` that only one side has, and ranges of `n` that are apart. -/
theorem combination_exact_touching :
    let n : Identifier := ⟨"n", .int, .variable⟩
    let x : Identifier := ⟨"x", .float, .variable⟩
    let a := constrain (.ofList [(n, .of .negInf (.fin 5)), (x, .of (.fin (-1 / 2)) 0)])
    let b := constrain (.ofList [(n, .of (.fin 5) .posInf)])
    let c := constrain (.ofList [(x, .of 0 .posInf), (n, .point (.fin 6))])
    (a.valuations ∩ b.valuations).Nonempty ∧ a.valuations ∩ c.valuations = ∅ ∧ (a.or c).Proper ∧
      ((a.or b).or c).valuations = (a.or (b.or c)).valuations := by
  intro n x a b c
  have ha : a.Proper := by decide +kernel
  have hb : b.Proper := by decide +kernel
  have hc : c.Proper := by decide +kernel
  obtain ⟨⟨-, -, htouching⟩, -, -, -, hassoc⟩ := combination_exact ha hb hc
  obtain ⟨⟨-, -, hapart⟩, ⟨hor, -⟩, -⟩ := combination_exact ha hc hb
  refine ⟨Set.nonempty_iff_ne_empty.2 fun hempty => ?_, hapart.1 ?_, hor, hassoc⟩
  · have hsame : (a.and b).same infeasible = true := by rw [htouching.2 hempty, same]
    exact absurd hsame (by decide +kernel)
  · have hsame : (a.and c).same infeasible = true := by decide +kernel
    cases hand : a.and c with
    | infeasible => rfl
    | constrain ranges =>
        rw [hand] at hsame
        cases hsame

end Refinement

end FlowAnalysis
