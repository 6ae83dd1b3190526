import FlowAnalysis.Interval.Basic
import FlowAnalysis.Proofs.Domain
import FlowAnalysis.Proofs.Number.Order

/-!
The lattice of intervals. Intervals are ordered by inclusion of the numbers between their bounds, joins
and widenings are above both operands and meets hold the common numbers. What bottom or top settles is what
the bounds give as well. A widening either keeps a bound or sends it to its infinity.
-/

namespace FlowAnalysis.Interval

instance : Membership Rat Interval := ⟨fun a q => a.contains (.fin q) = true⟩

instance (q : Rat) (a : Interval) : Decidable (q ∈ a) :=
  inferInstanceAs (Decidable (a.contains (.fin q) = true))

variable {a b c : Interval} {q : Rat}

protected theorem ext (hlower : a.lower = b.lower) (hupper : a.upper = b.upper) : a = b := by
  obtain ⟨lower, upper, _⟩ := a
  obtain rfl : lower = b.lower := hlower
  obtain rfl : upper = b.upper := hupper
  rfl

theorem contains_iff {v : Bound} : a.contains v = true ↔ a.lower ≤ v ∧ v ≤ a.upper := by
  rw [contains, Bool.and_eq_true, decide_eq_true_iff, decide_eq_true_iff]

theorem mem_iff : q ∈ a ↔ a.lower ≤ .fin q ∧ .fin q ≤ a.upper := contains_iff

theorem le_iff : a.le b = true ↔ b.lower ≤ a.lower ∧ a.upper ≤ b.upper := by
  rw [le, Bool.and_eq_true, decide_eq_true_iff, decide_eq_true_iff]

/-! ### Bottom and top -/

theorem isBottom_iff : a.isBottom = true ↔ a = bottom := by
  rw [isBottom, decide_eq_true_iff]
  obtain ⟨lower, upper, ⟨hle, -⟩ | ⟨rfl, rfl⟩⟩ := a
  · constructor
    · intro h
      exact absurd hle (not_le.2 h)
    · rintro h
      cases h
      exact absurd hle (by decide)
  · exact iff_of_true (by decide) rfl

theorem isBottom_eq_false_iff :
    a.isBottom = false ↔ a.lower ≤ a.upper ∧ a.lower ≠ .posInf ∧ a.upper ≠ .negInf := by
  rw [isBottom, decide_eq_false_iff_not, not_lt]
  obtain ⟨lower, upper, hproper | ⟨rfl, rfl⟩⟩ := a
  · exact iff_of_true hproper.1 hproper
  · exact iff_of_false (by decide) fun h => h.2.1 rfl

theorem isTop_iff : a.isTop = true ↔ a.lower = .negInf ∧ a.upper = .posInf := by
  rw [isTop, Bool.and_eq_true, decide_eq_true_iff, decide_eq_true_iff]

theorem isBottom_eq_false_of_isTop (h : a.isTop = true) : a.isBottom = false := by
  obtain ⟨hlower, hupper⟩ := isTop_iff.1 h
  rw [isBottom, hlower, hupper]
  rfl

theorem not_mem_bottom : ¬ q ∈ bottom := by
  rw [mem_iff]
  exact fun h => Bound.fin_ne_posInf (Bound.posInf_le.1 h.1)

theorem isBottom_eq_false_of_mem (h : q ∈ a) : a.isBottom = false := by
  rw [Bool.eq_false_iff]
  intro hbottom
  rw [isBottom_iff.1 hbottom] at h
  exact not_mem_bottom h

theorem exists_mem (h : a.isBottom = false) : ∃ q, q ∈ a := by
  obtain ⟨hle, hlower, hupper⟩ := isBottom_eq_false_iff.1 h
  cases hl : a.lower with
  | posInf => exact absurd hl hlower
  | fin q => exact ⟨q, mem_iff.2 ⟨hl.le, hl ▸ hle⟩⟩
  | negInf =>
      cases hu : a.upper with
      | negInf => exact absurd hu hupper
      | fin q => exact ⟨q, mem_iff.2 ⟨hl ▸ Bound.negInf_le _, hu.ge⟩⟩
      | posInf => exact ⟨0, mem_iff.2 ⟨hl ▸ Bound.negInf_le _, hu ▸ Bound.le_posInf _⟩⟩

theorem mem_top : q ∈ top := mem_iff.2 ⟨Bound.negInf_le _, Bound.le_posInf _⟩

/-! ### Order -/

protected theorem le_refl (a : Interval) : a.le a = true := le_iff.2 ⟨le_rfl, le_rfl⟩

protected theorem le_trans (hab : a.le b = true) (hbc : b.le c = true) : a.le c = true := by
  rw [le_iff] at hab hbc ⊢
  exact ⟨hbc.1.trans hab.1, hab.2.trans hbc.2⟩

protected theorem le_antisymm (hab : a.le b = true) (hba : b.le a = true) : a = b := by
  rw [le_iff] at hab hba
  exact Interval.ext (le_antisymm hba.1 hab.1) (le_antisymm hab.2 hba.2)

theorem bottom_le (a : Interval) : bottom.le a = true :=
  le_iff.2 ⟨Bound.le_posInf _, Bound.negInf_le _⟩

theorem le_of_isTop (h : b.isTop = true) : a.le b = true := by
  obtain ⟨hlower, hupper⟩ := isTop_iff.1 h
  rw [le_iff, hlower, hupper]
  exact ⟨Bound.negInf_le _, Bound.le_posInf _⟩

theorem eq_top_of_isTop (h : a.isTop = true) : a = top :=
  Interval.ext (isTop_iff.1 h).1 (isTop_iff.1 h).2

/-- Only top is above top. -/
theorem isTop_of_le (hle : a.le b = true) (h : a.isTop = true) : b.isTop = true := by
  rw [eq_top_of_isTop h, le_iff] at hle
  exact isTop_iff.2 ⟨Bound.le_negInf.1 hle.1, Bound.posInf_le.1 hle.2⟩

theorem le_of_isBottom (h : a.isBottom = true) : a.le b = true := isBottom_iff.1 h ▸ bottom_le b

theorem contains_of_le {v : Bound} (hle : a.le b = true) (h : a.contains v = true) : b.contains v = true := by
  rw [le_iff] at hle
  rw [contains_iff] at h ⊢
  exact ⟨hle.1.trans h.1, h.2.trans hle.2⟩

theorem mem_of_le (hle : a.le b = true) (h : q ∈ a) : q ∈ b := contains_of_le hle h

/-- What is above an interval with members is not bottom. -/
theorem isBottom_eq_false_of_le (hle : a.le b = true) (ha : a.isBottom = false) :
    b.isBottom = false := by
  rw [le_iff] at hle
  rw [isBottom_eq_false_iff] at ha ⊢
  refine ⟨(hle.1.trans ha.1).trans hle.2, ?_, ?_⟩
  · intro h
    rw [h, Bound.posInf_le] at hle
    exact ha.2.1 hle.1
  · intro h
    rw [h, Bound.le_negInf] at hle
    exact ha.2.2 hle.2

/-! ### Intervals from bounds -/

theorem mem_of {lower upper : Bound} : q ∈ of lower upper ↔ lower ≤ .fin q ∧ .fin q ≤ upper := by
  unfold of
  split_ifs with hproper
  · exact mem_iff
  · refine iff_of_false not_mem_bottom fun h => hproper ⟨h.1.trans h.2, ?_, ?_⟩
    · exact Bound.ne_posInf_of_le_fin h.1
    · exact Bound.ne_negInf_of_fin_le h.2

theorem mem_point {value : Rat} : q ∈ point (.fin value) ↔ q = value := by
  rw [point, mem_of, Bound.fin_le_fin, Bound.fin_le_fin]
  exact ⟨fun h => le_antisymm h.2 h.1, fun h => h ▸ ⟨le_rfl, le_rfl⟩⟩

/-- The bounds of an interval are those it was made from if they are canonical. -/
theorem of_eq {lower upper : Bound} (h : Canonical lower upper) :
    of lower upper = ⟨lower, upper, h⟩ := by
  unfold of
  rcases h with hproper | ⟨rfl, rfl⟩
  · rw [dif_pos hproper]
  · rw [dif_neg (by decide)]
    rfl

/-! ### Join, meet and widening -/

theorem join_bounds (a b : Interval) :
    (a.join b).lower = min a.lower b.lower ∧ (a.join b).upper = max a.upper b.upper := by
  have hcanonical : Canonical (min a.lower b.lower) (max a.upper b.upper) := by
    obtain ⟨al, au, ⟨ha, hal, hau⟩ | ⟨rfl, rfl⟩⟩ := a
    · refine Or.inl ⟨?_, ?_, ?_⟩
      · exact (min_le_left _ _).trans (ha.trans (le_max_left _ _))
      · exact ((min_le_left _ _).trans_lt (lt_of_le_of_ne (Bound.le_posInf _) hal)).ne
      · exact ((lt_of_le_of_ne (Bound.negInf_le _) hau.symm).trans_le (le_max_left _ _)).ne'
    · rw [min_eq_right (Bound.le_posInf _), max_eq_right (Bound.negInf_le _)]
      exact b.canonical
  rw [join, Bound.min_eq, Bound.max_eq, of_eq hcanonical]
  exact ⟨rfl, rfl⟩

theorem le_join_left (a b : Interval) : a.le (a.join b) = true := by
  rw [le_iff, (join_bounds a b).1, (join_bounds a b).2]
  exact ⟨min_le_left _ _, le_max_left _ _⟩

theorem le_join_right (a b : Interval) : b.le (a.join b) = true := by
  rw [le_iff, (join_bounds a b).1, (join_bounds a b).2]
  exact ⟨min_le_right _ _, le_max_right _ _⟩

theorem join_le (ha : a.le c = true) (hb : b.le c = true) : (a.join b).le c = true := by
  rw [le_iff] at ha hb
  rw [le_iff, (join_bounds a b).1, (join_bounds a b).2]
  exact ⟨le_min ha.1 hb.1, max_le ha.2 hb.2⟩

theorem join_eq_right (h : a.le b = true) : a.join b = b :=
  Interval.le_antisymm (join_le h (Interval.le_refl b)) (le_join_right a b)

theorem join_comm (a b : Interval) : a.join b = b.join a :=
  Interval.le_antisymm (join_le (le_join_right b a) (le_join_left b a))
    (join_le (le_join_right a b) (le_join_left a b))

theorem le_foldl_join (a : Interval) (intervals : List Interval) :
    a.le (intervals.foldl join a) = true ∧ ∀ b ∈ intervals, b.le (intervals.foldl join a) = true := by
  induction intervals generalizing a with
  | nil => exact ⟨Interval.le_refl a, List.forall_mem_nil _⟩
  | cons c intervals ih =>
      obtain ⟨hjoined, hrest⟩ := ih (a.join c)
      exact ⟨Interval.le_trans (le_join_left a c) hjoined,
        List.forall_mem_cons.2 ⟨Interval.le_trans (le_join_right a c) hjoined, hrest⟩⟩

theorem le_joinAll {intervals : List Interval} (h : a ∈ intervals) : a.le (joinAll intervals) = true :=
  (le_foldl_join bottom intervals).2 a h

theorem joinAll_le {intervals : List Interval} (h : ∀ b ∈ intervals, b.le a = true) :
    (joinAll intervals).le a = true := by
  have hfold : ∀ c : Interval, c.le a = true → (intervals.foldl join c).le a = true := by
    induction intervals with
    | nil => exact fun c hc => hc
    | cons b intervals ih =>
        obtain ⟨hb, h⟩ := List.forall_mem_cons.1 h
        exact fun c hc => ih h (c.join b) (join_le hc hb)
  exact hfold bottom (bottom_le a)

theorem of_bounds {lower upper : Bound} (h : (of lower upper).isBottom = false) :
    (of lower upper).lower = lower ∧ (of lower upper).upper = upper := by
  unfold of at h ⊢
  split_ifs at h ⊢
  · exact ⟨rfl, rfl⟩
  · cases h

theorem of_mono {lower lower' upper upper' : Bound} (hlower : lower' ≤ lower) (hupper : upper ≤ upper') :
    (of lower upper).le (of lower' upper') = true := by
  cases hbottom : (of lower upper).isBottom with
  | true => exact le_of_isBottom hbottom
  | false =>
      obtain ⟨hle, hne, hne'⟩ := isBottom_eq_false_iff.1 hbottom
      rw [(of_bounds hbottom).1, (of_bounds hbottom).2] at hle
      rw [(of_bounds hbottom).1] at hne
      rw [(of_bounds hbottom).2] at hne'
      have hcanonical : Canonical lower' upper' := by
        refine Or.inl ⟨hlower.trans (hle.trans hupper), fun h => hne ?_, fun h => hne' ?_⟩
        · exact Bound.posInf_le.1 (h ▸ hlower)
        · exact Bound.le_negInf.1 (h ▸ hupper)
      rw [of_eq hcanonical, le_iff, (of_bounds hbottom).1, (of_bounds hbottom).2]
      exact ⟨hlower, hupper⟩

theorem point_bounds (q : Rat) : (point (.fin q)).lower = .fin q ∧ (point (.fin q)).upper = .fin q :=
  of_bounds (isBottom_eq_false_of_mem (mem_point.2 (rfl : q = q)))

theorem point_le (h : q ∈ a) : (point (.fin q)).le a = true := by
  rw [le_iff, (point_bounds q).1, (point_bounds q).2]
  exact mem_iff.1 h

theorem meet_comm (a b : Interval) : a.meet b = b.meet a := by
  rw [meet, meet, Bound.max_eq, Bound.max_eq, Bound.min_eq, Bound.min_eq, max_comm, min_comm]

/-- The bounds of a meet that is not bottom. -/
theorem meet_bounds (h : (a.meet b).isBottom = false) :
    (a.meet b).lower = max a.lower b.lower ∧ (a.meet b).upper = min a.upper b.upper := by
  rw [meet, Bound.max_eq, Bound.min_eq] at h ⊢
  exact of_bounds h

theorem meet_le_left (a b : Interval) : (a.meet b).le a = true := by
  cases h : (a.meet b).isBottom with
  | true =>
      rw [isBottom_iff.1 h]
      exact bottom_le a
  | false =>
      rw [le_iff, (meet_bounds h).1, (meet_bounds h).2]
      exact ⟨le_max_left _ _, min_le_left _ _⟩

theorem meet_le_right (a b : Interval) : (a.meet b).le b = true := meet_comm b a ▸ meet_le_left b a

theorem le_meet (ha : c.le a = true) (hb : c.le b = true) : c.le (a.meet b) = true := by
  rw [le_iff] at ha hb
  have hle := of_mono (max_le ha.1 hb.1) (le_min ha.2 hb.2)
  rwa [of_eq c.canonical, ← Bound.max_eq, ← Bound.min_eq] at hle

theorem meet_eq_right (h : b.le a = true) : a.meet b = b :=
  Interval.le_antisymm (meet_le_right a b) (le_meet h (Interval.le_refl b))

/-- What lies inside an interval meets no more than that. -/
theorem isBottom_meet_of_le (hle : a.le b = true) (h : (b.meet c).isBottom = true) :
    (a.meet c).isBottom = true := by
  have hmeet : (a.meet c).le (b.meet c) = true :=
    le_meet (Interval.le_trans (meet_le_left a c) hle) (meet_le_right a c)
  rw [← Bool.not_eq_false] at h ⊢
  exact fun hproper => h (isBottom_eq_false_of_le hmeet hproper)

theorem isBottom_meet_of_lt (h : a.upper < b.lower) : (a.meet b).isBottom = true := by
  rw [← Bool.not_eq_false]
  intro hproper
  have hle := (isBottom_eq_false_iff.1 hproper).1
  rw [(meet_bounds hproper).1, (meet_bounds hproper).2] at hle
  exact absurd h (not_lt.2 ((le_max_right _ _).trans (hle.trans (min_le_left _ _))))

theorem mem_meet : q ∈ a.meet b ↔ q ∈ a ∧ q ∈ b := by
  rw [meet, Bound.min_eq, Bound.max_eq, mem_of, max_le_iff, le_min_iff, mem_iff, mem_iff]
  tauto

/-- A widening of two intervals with members keeps each bound or sends it to its infinity. -/
theorem widen_bounds (ha : a.isBottom = false) (hb : b.isBottom = false) :
    (a.widen b).lower = (if b.lower < a.lower then .negInf else a.lower) ∧
      (a.widen b).upper = (if a.upper < b.upper then .posInf else a.upper) := by
  have hproper := isBottom_eq_false_iff.1 ha
  have hcanonical : Canonical (if b.lower < a.lower then .negInf else a.lower)
      (if a.upper < b.upper then .posInf else a.upper) := by
    refine Or.inl ⟨?_, ?_, ?_⟩
    · split_ifs
      · exact Bound.negInf_le _
      · exact Bound.negInf_le _
      · exact Bound.le_posInf _
      · exact hproper.1
    · split_ifs
      · decide
      · exact hproper.2.1
    · split_ifs
      · decide
      · exact hproper.2.2
  rw [widen, ha, hb]
  simp only [Bool.false_eq_true, if_false]
  rw [of_eq hcanonical]
  exact ⟨rfl, rfl⟩

theorem widen_bottom_left (ha : a.isBottom = true) : a.widen b = b := by
  rw [widen, ha, if_pos rfl]

theorem widen_bottom_right (ha : a.isBottom = false) (hb : b.isBottom = true) : a.widen b = a := by
  rw [widen, ha, hb]
  rfl

theorem le_widen_left (a b : Interval) : a.le (a.widen b) = true := by
  cases ha : a.isBottom with
  | true =>
      rw [isBottom_iff.1 ha]
      exact bottom_le _
  | false =>
      cases hb : b.isBottom with
      | true =>
          rw [widen_bottom_right ha hb]
          exact Interval.le_refl a
      | false =>
          rw [le_iff, (widen_bounds ha hb).1, (widen_bounds ha hb).2]
          constructor
          · split_ifs
            · exact Bound.negInf_le _
            · exact le_rfl
          · split_ifs
            · exact Bound.le_posInf _
            · exact le_rfl

theorem le_widen_right (a b : Interval) : b.le (a.widen b) = true := by
  cases ha : a.isBottom with
  | true =>
      rw [widen_bottom_left ha]
      exact Interval.le_refl b
  | false =>
      cases hb : b.isBottom with
      | true =>
          rw [isBottom_iff.1 hb]
          exact bottom_le _
      | false =>
          rw [le_iff, (widen_bounds ha hb).1, (widen_bounds ha hb).2]
          constructor
          · split_ifs with h
            · exact Bound.negInf_le _
            · exact not_lt.1 h
          · split_ifs with h
            · exact Bound.le_posInf _
            · exact not_lt.1 h

theorem widen_eq_left (h : b.le a = true) : a.widen b = a := by
  cases ha : a.isBottom with
  | true =>
      have hb : b.isBottom = true := by
        rw [← Bool.not_eq_false] at ha ⊢
        exact fun hb => ha (isBottom_eq_false_of_le h hb)
      rw [widen_bottom_left ha, isBottom_iff.1 ha, isBottom_iff.1 hb]
  | false =>
      cases hb : b.isBottom with
      | true => exact widen_bottom_right ha hb
      | false =>
          rw [le_iff] at h
          obtain ⟨hlower, hupper⟩ := widen_bounds ha hb
          rw [if_neg (not_lt.2 h.1)] at hlower
          rw [if_neg (not_lt.2 h.2)] at hupper
          exact Interval.ext hlower hupper

/-! ### What bottom or top settles -/

theorem join_of_settledJoin (h : Extremal.settledJoin a b = some c) : a.join b = c := by
  rcases Extremal.settledJoin_eq_some h with ⟨rfl, hset⟩ | ⟨rfl, hset⟩
  · rw [join_comm]
    exact join_eq_right (hset.elim le_of_isBottom le_of_isTop)
  · exact join_eq_right (hset.elim le_of_isBottom le_of_isTop)

theorem meet_of_settledMeet (h : Extremal.settledMeet a b = some c) : a.meet b = c := by
  rcases Extremal.settledMeet_eq_some h with ⟨rfl, hset⟩ | ⟨rfl, hset⟩
  · rw [meet_comm]
    exact meet_eq_right (hset.elim le_of_isTop le_of_isBottom)
  · exact meet_eq_right (hset.elim le_of_isTop le_of_isBottom)

theorem widen_of_settledJoin (h : Extremal.settledJoin a b = some c) : a.widen b = c := by
  rcases Extremal.settledJoin_eq_some h with ⟨rfl, hset⟩ | ⟨rfl, hbottom | htop⟩
  · exact widen_eq_left (hset.elim le_of_isBottom le_of_isTop)
  · exact widen_bottom_left hbottom
  · exact Interval.le_antisymm (le_of_isTop htop) (le_widen_right a c)

/-! ### Finite bounds -/

/-- How many of the two bounds are not at their infinity. -/
def finiteBounds (a : Interval) : Nat :=
  (if a.lower = .negInf then 0 else 1) + if a.upper = .posInf then 0 else 1

theorem finiteBounds_le (a : Interval) : a.finiteBounds ≤ 2 := by
  unfold finiteBounds
  split <;> split <;> decide

theorem finiteBounds_eq_zero_iff : a.finiteBounds = 0 ↔ a.isTop = true := by
  simp [isTop_iff, finiteBounds]

/-- A widening that changes an interval costs it a finite bound. -/
theorem widen_eq_or_finiteBounds_lt (ha : a.isBottom = false) (hb : b.isBottom = false) :
    a.widen b = a ∨ (a.widen b).finiteBounds < a.finiteBounds := by
  obtain ⟨hlower, hupper⟩ := widen_bounds ha hb
  rw [finiteBounds, finiteBounds, hlower, hupper]
  have hnegInf : b.lower < a.lower → a.lower ≠ .negInf := fun h => ((Bound.negInf_le _).trans_lt h).ne'
  have hposInf : a.upper < b.upper → a.upper ≠ .posInf := fun h => (h.trans_le (Bound.le_posInf _)).ne
  by_cases hl : b.lower < a.lower
  · right
    rw [if_pos hl, if_pos rfl, if_neg (hnegInf hl)]
    by_cases hu : a.upper < b.upper
    · rw [if_pos hu, if_pos rfl]
      omega
    · rw [if_neg hu]
      omega
  · by_cases hu : a.upper < b.upper
    · right
      rw [if_neg hl, if_pos hu, if_pos rfl, if_neg (hposInf hu)]
      omega
    · left
      rw [if_neg hl] at hlower
      rw [if_neg hu] at hupper
      exact Interval.ext hlower hupper

theorem finiteBounds_anti (h : a.le b = true) : b.finiteBounds ≤ a.finiteBounds := by
  rw [le_iff] at h
  have hlower : a.lower = .negInf → b.lower = .negInf := fun ha => Bound.le_negInf.1 (ha ▸ h.1)
  have hupper : a.upper = .posInf → b.upper = .posInf := fun ha => Bound.posInf_le.1 (ha ▸ h.2)
  unfold finiteBounds
  split_ifs <;> simp_all

/-! ### Laws -/

theorem extremes : Domain.Extremes Interval where
  exclusive {a} hbottom := by
    rw [Bool.eq_false_iff]
    intro htop
    exact absurd hbottom (Bool.eq_false_iff.1 (isBottom_eq_false_of_isTop htop))
  bottom_of_le {a b} hle hbottom := by
    cases ha : a.isBottom with
    | true => exact ha
    | false => exact absurd hbottom (Bool.eq_false_iff.1 (isBottom_eq_false_of_le hle ha))

theorem upperBounds : Domain.UpperBounds Interval where
  le_refl := Interval.le_refl
  le_trans := Interval.le_trans
  le_join_left {a b _} h := pure_eq_ok.1 h ▸ le_join_left a b
  le_join_right {a b _} h := pure_eq_ok.1 h ▸ le_join_right a b
  le_widen_right {a b _} h := pure_eq_ok.1 h ▸ le_widen_right a b

end FlowAnalysis.Interval
