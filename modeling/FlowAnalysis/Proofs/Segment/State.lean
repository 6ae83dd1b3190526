import FlowAnalysis.Proofs.Segment.Cover
import FlowAnalysis.Proofs.Store
import FlowAnalysis.Segment.State

/-!
States of the segmented analysis. A proper state is not bottom, none of its ranges is empty and the segments of its
containers are tidy. Setting a range that is not empty or the segments of a container keeps a state proper, so
that nothing is left to normalize.
-/

namespace FlowAnalysis.SegmentState

open Segment (Tidy)

variable {s : SegmentState} {x y : Identifier} {range : Interval} {m : SegmentMap} {ss : List Segment}

theorem isBottom_eq_false_iff : Extremal.isBottom s = false ↔
    s.reachable = true ∧ Extremal.isBottom s.scalars = false ∧ Extremal.isBottom s.contents = false := by
  change (!s.reachable || Extremal.isBottom s.scalars || Extremal.isBottom s.contents) = false ↔ _
  rw [Bool.or_eq_false_iff, Bool.or_eq_false_iff, Bool.not_eq_false', and_assoc]

/-! ### Setting a range or a container -/

theorem scalar?_setScalar (s : SegmentState) (x y : Identifier) (range : Interval) :
    (s.setScalar x range).scalar? y =
      if y = x ∧ s.scalars.contains x = true then some range else s.scalar? y := by
  unfold setScalar
  split
  · rename_i hkept
    simp only [hkept, and_true]
    exact OrderedMap.get?_insert s.scalars x y range
  · rename_i hkept
    rw [if_neg fun h => hkept h.2]

theorem contents?_setScalar (s : SegmentState) (x y : Identifier) (range : Interval) :
    (s.setScalar x range).contents? y = s.contents? y := by
  unfold setScalar
  split <;> rfl

theorem contains_setScalar (s : SegmentState) (x y : Identifier) (range : Interval) :
    (s.setScalar x range).contents.contains y = s.contents.contains y := by
  unfold setScalar
  split <;> rfl

theorem reachable_setScalar (s : SegmentState) (x : Identifier) (range : Interval) :
    (s.setScalar x range).reachable = s.reachable := by
  unfold setScalar
  split <;> rfl

theorem contents?_setContents (s : SegmentState) (x y : Identifier) (m : SegmentMap) :
    (s.setContents x m).contents? y = if y = x then some m else s.contents? y :=
  OrderedMap.get?_insert s.contents x y m

theorem value_setScalar_of_ne (h : y ≠ x) : (s.setScalar x range).value y = s.value y := by
  rw [value, value, scalar?_setScalar, if_neg fun hyx => h hyx.1]

/-- The range that was set, or of an identifier that is not kept what is known of any. -/
theorem value_setScalar_self (s : SegmentState) (x : Identifier) (range : Interval) :
    (s.setScalar x range).value x = range ∨ (s.setScalar x range).value x = x.unknown := by
  rw [value, scalar?_setScalar]
  split
  · exact Or.inl rfl
  · rename_i hkept
    rw [scalar?, OrderedMap.get?_eq_none_iff.2]
    · exact Or.inr rfl
    · rw [← OrderedMap.contains_eq_true_iff]
      exact fun h => hkept ⟨rfl, h⟩

/-! ### Proper states -/

/-- A state that is not bottom, with ranges that are not empty and tidy segments. -/
structure Proper (s : SegmentState) : Prop where
  notBottom : Extremal.isBottom s = false
  scalars : ∀ x range, s.scalar? x = some range → range.isBottom = false
  tidy : ∀ x m, s.contents? x = some m → Tidy m.toList

theorem Proper.segments (hs : s.Proper) (hx : x.role ≠ .length) (hm : s.contents? x = some m) :
    m.segments = some m.toList := by
  obtain ⟨-, -, hcontents⟩ := isBottom_eq_false_iff.1 hs.notBottom
  rw [Bool.eq_false_iff] at hcontents
  rw [← SegmentMap.isBottom_eq_false_iff, Bool.eq_false_iff]
  exact fun hbottom => hcontents (Store.isBottom_iff.2 ⟨x, m, hm, hx, hbottom⟩)

theorem Proper.setScalar (hs : s.Proper) (hrange : range.isBottom = false) :
    (s.setScalar x range).Proper := by
  have hscalars : ∀ y a, (s.setScalar x range).scalar? y = some a → a.isBottom = false := by
    intro y a ha
    rw [scalar?_setScalar] at ha
    split at ha
    · exact Option.some.inj ha ▸ hrange
    · exact hs.scalars y a ha
  obtain ⟨hreachable, -, hcontents⟩ := isBottom_eq_false_iff.1 hs.notBottom
  refine ⟨isBottom_eq_false_iff.2 ⟨?_, ?_, ?_⟩, hscalars, fun y m hm => ?_⟩
  · rwa [reachable_setScalar]
  · rw [Bool.eq_false_iff]
    intro hbottom
    obtain ⟨y, a, ha, -, hbottom⟩ := Store.isBottom_iff.1 hbottom
    exact absurd hbottom (Bool.eq_false_iff.1 (hscalars y a ha))
  · unfold SegmentState.setScalar
    split
    · exact hcontents
    · exact hcontents
  · rw [contents?_setScalar] at hm
    exact hs.tidy y m hm

theorem Proper.setContents (hs : s.Proper) (hm : m.segments = some ss) (hss : Tidy ss) :
    (s.setContents x m).Proper := by
  obtain ⟨hreachable, hscalars, hcontents⟩ := isBottom_eq_false_iff.1 hs.notBottom
  refine ⟨isBottom_eq_false_iff.2 ⟨hreachable, hscalars, ?_⟩, hs.scalars, fun y m' hm' => ?_⟩
  · rw [Bool.eq_false_iff] at hcontents ⊢
    intro hbottom
    obtain ⟨y, m', hm', hy, hbottom⟩ := Store.isBottom_iff.1 hbottom
    rw [← contents?, contents?_setContents] at hm'
    split at hm'
    · obtain rfl := Option.some.inj hm'
      rw [SegmentMap.isBottom_eq_false_iff.2 (by rw [hm, SegmentMap.toList_of_segments hm])] at hbottom
      cases hbottom
    · exact hcontents (Store.isBottom_iff.2 ⟨y, m', hm', hy, hbottom⟩)
  · rw [contents?_setContents] at hm'
    split at hm'
    · obtain rfl := Option.some.inj hm'
      rwa [SegmentMap.toList_of_segments hm]
    · exact hs.tidy y m' hm'

theorem Proper.normalized (hs : s.Proper) : s.normalized = s := by
  obtain ⟨-, -, hcontents⟩ := isBottom_eq_false_iff.1 hs.notBottom
  have hscalars : s.scalars.values.any Interval.isBottom = false := by
    rw [Bool.eq_false_iff]
    intro hbottom
    obtain ⟨a, ha, hbottom⟩ := List.any_eq_true.1 hbottom
    obtain ⟨x, hx⟩ := OrderedMap.mem_values_iff.1 ha
    exact absurd hbottom (Bool.eq_false_iff.1 (hs.scalars x a hx))
  rw [SegmentState.normalized, hscalars, hcontents]
  rfl

/-- States start proper. -/
theorem ofVariables_proper (vars : List Identifier) : (ofVariables vars).Proper := by
  have hscalars : ∀ x range, (ofVariables vars).scalar? x = some range → range.isBottom = false := by
    intro x range hrange
    rw [scalar?, ofVariables, Store.get?_ofIdentifiers] at hrange
    obtain rfl := Option.some.inj (Option.ite_none_right_eq_some.1 hrange).2
    rw [Identifier.unknown]
    split <;> rfl
  have hcontents : ∀ x m, (ofVariables vars).contents? x = some m → m = anyContent x.type := by
    intro x m hm
    rw [contents?, ofVariables, Store.get?_ofIdentifiers] at hm
    exact (Option.some.inj (Option.ite_none_right_eq_some.1 hm).2).symm
  refine ⟨isBottom_eq_false_iff.2 ⟨rfl, ?_, ?_⟩, hscalars, fun x m hm => ?_⟩
  · rw [Bool.eq_false_iff]
    intro hbottom
    obtain ⟨x, range, hrange, -, hbottom⟩ := Store.isBottom_iff.1 hbottom
    exact absurd hbottom (Bool.eq_false_iff.1 (hscalars x range hrange))
  · rw [Bool.eq_false_iff]
    intro hbottom
    obtain ⟨x, m, hm, -, hbottom⟩ := Store.isBottom_iff.1 hbottom
    rw [hcontents x m hm] at hbottom
    cases hbottom
  · rw [hcontents x m hm]
    exact (SegmentMap.full_wellFormed _).toList.tidy

/-! ### A list of two numbers -/

namespace Pair

/-- A variable that holds a list of whole numbers. -/
def numbers : Identifier := ⟨"l", .list .int, .variable⟩

/-- Ten at the first position and twenty at the second. -/
def segments : List Segment := [⟨⟨.point 0, true⟩, .point 10⟩, ⟨⟨.point 1, true⟩, .point 20⟩]

/-- The variable holds the list of ten and twenty. -/
def state : SegmentState :=
  ((ofVariables [numbers]).setScalar numbers.lengthOf (.point 2)).setContents numbers
    ⟨true, some segments⟩

theorem proper : state.Proper := by
  have htight : ∀ n : Int, Region.Tight ⟨.point (.fin n), true⟩ := fun n => (Region.of_ofKind n n).tight
  have htidy : Tidy segments := by
    refine Segment.tidy_cons.2 ⟨htight 0, by decide +kernel, List.forall_mem_singleton.2 ?_, ?_⟩
    · change ((Interval.point 0).meet (.point 1)).isBottom = true
      decide +kernel
    · exact Segment.tidy_cons.2 ⟨htight 1, by decide +kernel, List.forall_mem_nil _, .nil⟩
  exact ((ofVariables_proper _).setScalar (by decide +kernel)).setContents rfl htidy

end Pair

end FlowAnalysis.SegmentState
