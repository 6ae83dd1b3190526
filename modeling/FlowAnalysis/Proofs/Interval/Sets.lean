import FlowAnalysis.Proofs.Interval.Doubles
import FlowAnalysis.Proofs.Segment.Region

/-!
Intervals as sets of doubles. An interval holds the doubles between its bounds, infinities included, and bottom holds
none. Its bounds are doubles themselves, so that an interval is below another exactly if all doubles that it holds are
held by the other. Intervals form a lattice in which the meet holds what both hold and the join is the least interval
above both; the laws of joins and meets, and that a list is joined or met to the same interval in any order, are those
of a lattice. What bottom or top settles before the bounds are looked at is what the bounds give as well.
-/

namespace FlowAnalysis

/-- Whether a finite number is one that doubles can have. -/
def Double.isRounded (x : Double) : Bool :=
  match x.bound? with
  | some (.fin q) => Bound.round q = .fin q
  | _ => true

namespace Interval

variable {a b c : Interval} {x lower upper : Double} {v : Bound}

/-! ### Members -/

/-- An interval with a member, be it an infinity, is not bottom. -/
theorem isBottom_eq_false_of_contains (h : a.contains v = true) : a.isBottom = false := by
  rw [contains_iff] at h
  rw [isBottom, decide_eq_false_iff_not, not_lt]
  exact h.1.trans h.2

theorem contains_meet : (a.meet b).contains v = true ↔ a.contains v = true ∧ b.contains v = true := by
  refine ⟨fun h => ⟨contains_of_le (meet_le_left a b) h, contains_of_le (meet_le_right a b) h⟩, ?_⟩
  rintro ⟨ha, hb⟩
  obtain ⟨-, halower, haupper⟩ := isBottom_eq_false_iff.1 (isBottom_eq_false_of_contains ha)
  obtain ⟨-, hblower, hbupper⟩ := isBottom_eq_false_iff.1 (isBottom_eq_false_of_contains hb)
  rw [contains_iff] at ha hb
  have hlower : max a.lower b.lower ≤ v := max_le ha.1 hb.1
  have hupper : v ≤ min a.upper b.upper := le_min ha.2 hb.2
  have hcanonical : Canonical (max a.lower b.lower) (min a.upper b.upper) := by
    refine Or.inl ⟨hlower.trans hupper, ?_, ?_⟩
    · rcases max_choice a.lower b.lower with h | h <;> rwa [h]
    · rcases min_choice a.upper b.upper with h | h <;> rwa [h]
  rw [meet, Bound.max_eq, Bound.min_eq, of_eq hcanonical, contains_iff]
  exact ⟨hlower, hupper⟩

theorem holds_eq_true_iff : a.holds x = true ↔ ∃ v, x.bound? = some v ∧ a.contains v = true := by
  rw [holds, Option.any_eq_true]

theorem holds_meet : (a.meet b).holds x = true ↔ a.holds x = true ∧ b.holds x = true := by
  simp only [holds_eq_true_iff, contains_meet]
  constructor
  · rintro ⟨v, hv, ha, hb⟩
    exact ⟨⟨v, hv, ha⟩, v, hv, hb⟩
  · rintro ⟨⟨v, hv, ha⟩, w, hw, hb⟩
    obtain rfl : v = w := Option.some.inj (hv.symm.trans hw)
    exact ⟨v, hv, ha, hb⟩

/-- An interval that is made from two doubles holds both, unless it is bottom. -/
theorem holds_ends (h : (ofDoubles lower upper).isBottom = false) :
    lower.bound? = some (ofDoubles lower upper).lower ∧ upper.bound? = some (ofDoubles lower upper).upper := by
  cases hlower : lower.bound? with
  | none => simp [ofDoubles, hlower, isBottom_iff.2] at h
  | some l =>
      cases hupper : upper.bound? with
      | none => simp [ofDoubles, hlower, hupper, isBottom_iff.2] at h
      | some u =>
          have hof : ofDoubles lower upper = of l u := by rw [ofDoubles, hlower, hupper]
          rw [hof] at h ⊢
          rw [(of_bounds h).1, (of_bounds h).2]
          exact ⟨rfl, rfl⟩

/-- The order is inclusion of the doubles that are held: the ends of an interval are among them. -/
theorem le_iff_forall_holds (hlower : lower.isRounded = true) (hupper : upper.isRounded = true) :
    (ofDoubles lower upper).le b = true ↔
      ∀ x : Double, x.isRounded = true → (ofDoubles lower upper).holds x = true → b.holds x = true := by
  constructor
  · intro hle x _ hx
    obtain ⟨v, hv, hcontains⟩ := holds_eq_true_iff.1 hx
    exact holds_eq_true_iff.2 ⟨v, hv, contains_of_le hle hcontains⟩
  · intro h
    cases hbottom : (ofDoubles lower upper).isBottom with
    | true => exact le_of_isBottom hbottom
    | false =>
        obtain ⟨hl, hu⟩ := holds_ends hbottom
        have hends := (isBottom_eq_false_iff.1 hbottom).1
        have hleft := h lower hlower (holds_eq_true_iff.2 ⟨_, hl, contains_iff.2 ⟨le_refl _, hends⟩⟩)
        have hright := h upper hupper (holds_eq_true_iff.2 ⟨_, hu, contains_iff.2 ⟨hends, le_refl _⟩⟩)
        rw [holds, hl] at hleft
        rw [holds, hu] at hright
        exact le_iff.2 ⟨(contains_iff.1 hleft).1, (contains_iff.1 hright).2⟩

/-! ### The lattice -/

instance : Lattice Interval where
  le a b := a.le b = true
  le_refl := Interval.le_refl
  le_trans _ _ _ := Interval.le_trans
  le_antisymm _ _ := Interval.le_antisymm
  sup := join
  le_sup_left := le_join_left
  le_sup_right := le_join_right
  sup_le _ _ _ := join_le
  inf := meet
  inf_le_left := meet_le_left
  inf_le_right := meet_le_right
  le_inf _ _ _ := le_meet

theorem isLUB_joinAll (intervals : List Interval) : IsLUB {d | d ∈ intervals} (joinAll intervals) :=
  ⟨fun _ hd => le_joinAll hd, fun _ hd => joinAll_le fun _ he => hd he⟩

theorem isGLB_foldl_meet (a : Interval) (intervals : List Interval) :
    IsGLB (insert a {d | d ∈ intervals}) (intervals.foldl meet a) := by
  induction intervals generalizing a with
  | nil => simp [isGLB_singleton]
  | cons b intervals ih =>
      -- a lower bound of `a` and `b` is one of their meet
      have hsame : lowerBounds (insert a {d | d ∈ b :: intervals}) =
          lowerBounds (insert (a.meet b) {d | d ∈ intervals}) := by
        ext d
        simp only [mem_lowerBounds, Set.forall_mem_insert, Set.mem_ofPred_eq, List.forall_mem_cons]
        rw [show a.meet b = a ⊓ b from rfl, le_inf_iff, and_assoc]
      rw [IsGLB, hsame]
      exact ih (a.meet b)

theorem isGLB_meetAll (intervals : List Interval) : IsGLB {d | d ∈ intervals} (meetAll intervals) := by
  obtain ⟨hlower, hgreatest⟩ := isGLB_foldl_meet top intervals
  refine ⟨fun d hd => hlower (Set.mem_insert_of_mem _ hd), fun d hd => hgreatest ?_⟩
  exact Set.forall_mem_insert.2 ⟨le_of_isTop rfl, fun e he => hd he⟩

/-! ### Bottom and top -/

theorem le_of_settledLe {r : Bool} (h : Extremal.settledLe a b = some r) : a.le b = r := by
  unfold Extremal.settledLe at h
  split_ifs at h with htrue hfalse
  · obtain rfl := Option.some.inj h
    rcases Bool.or_eq_true_iff.1 htrue with hbottom | htop
    · exact le_of_isBottom hbottom
    · exact le_of_isTop htop
  · obtain rfl := Option.some.inj h
    rw [Bool.or_eq_true, not_or] at htrue
    rw [Bool.eq_false_iff]
    intro hle
    rcases Bool.or_eq_true_iff.1 hfalse with hbottom | htop
    · exact htrue.1 (extremes.bottom_of_le hle hbottom)
    · exact htrue.2 (isTop_of_le hle htop)

/-- Operations on intervals agree with the sets of doubles that they hold. Of two intervals the first is made from any
two doubles; the order is inclusion, the meet holds what both hold, and the join is the least interval above both.
Joins and meets are commutative, associative and idempotent, and those of a list are bounds of its members in whatever
order and number they stand. Rounding the bounds inwards to whole numbers loses no whole number and adds none. -/
theorem operations_on_sets (hlower : lower.isRounded = true) (hupper : upper.isRounded = true) :
    let a := ofDoubles lower upper
    (∀ b, a.le b = true ↔ ∀ x : Double, x.isRounded = true → a.holds x = true → b.holds x = true) ∧
    (∀ b x, (a.meet b).holds x = true ↔ a.holds x = true ∧ b.holds x = true) ∧
    (∀ b, a.le (a.join b) = true ∧ b.le (a.join b) = true ∧
      ∀ c, a.le c = true → b.le c = true → (a.join b).le c = true) ∧
    (∀ b c, a.join b = b.join a ∧ (a.join b).join c = a.join (b.join c) ∧ a.join a = a) ∧
    (∀ b c, a.meet b = b.meet a ∧ (a.meet b).meet c = a.meet (b.meet c) ∧ a.meet a = a) ∧
    (∀ intervals, IsLUB {d | d ∈ intervals} (joinAll intervals) ∧ IsGLB {d | d ∈ intervals} (meetAll intervals)) ∧
    (∀ intervals others : List Interval, (∀ d, d ∈ others ↔ d ∈ intervals) →
      joinAll others = joinAll intervals ∧ meetAll others = meetAll intervals) ∧
    (∀ n : Int, (n : Rat) ∈ a.integral ↔ (n : Rat) ∈ a) ∧ a.integral.IsWhole ∧
    (∀ b r, Extremal.settledLe a b = some r → a.le b = r) ∧
    (∀ b c, Extremal.settledJoin a b = some c → a.join b = c) ∧
    (∀ b c, Extremal.settledMeet a b = some c → a.meet b = c) := by
  intro a
  refine ⟨fun b => le_iff_forall_holds hlower hupper, fun b x => holds_meet, ?_, ?_, ?_, ?_, ?_,
    fun n => mem_integral_iff, isWhole_integral a, fun b r => le_of_settledLe, fun b c => join_of_settledJoin,
    fun b c => meet_of_settledMeet⟩
  · exact fun b => ⟨le_join_left a b, le_join_right a b, fun c => join_le⟩
  · exact fun b c => ⟨join_comm a b, sup_assoc a b c, sup_idem a⟩
  · exact fun b c => ⟨meet_comm a b, inf_assoc a b c, inf_idem a⟩
  · exact fun intervals => ⟨isLUB_joinAll intervals, isGLB_meetAll intervals⟩
  · intro intervals others h
    have hset : {d | d ∈ others} = {d | d ∈ intervals} := Set.ext h
    exact ⟨(hset ▸ isLUB_joinAll others).unique (isLUB_joinAll intervals),
      (hset ▸ isGLB_meetAll others).unique (isGLB_meetAll intervals)⟩

/-- From an infinity up to negative zero and from `-5 / 2` up to an infinity: neither is below the other, so that a
double tells them apart, and both hold negative zero. -/
theorem operations_on_sets_halfInfinite :
    let a := ofDoubles (.number .negInf) .negZero
    let b := ofDoubles (.number (.fin (-5 / 2))) (.number .posInf)
    (∃ x : Double, x.isRounded = true ∧ a.holds x = true ∧ b.holds x = false) ∧
    (a.meet b).holds .negZero = true ∧ (a.meet b).holds (.number .negInf) = false ∧
    joinAll [b, a, b] = joinAll [a, b] ∧ meetAll [b, a, b] = meetAll [a, b] := by
  intro a b
  obtain ⟨hle, hmeet, -, -, -, -, hlists, -⟩ := operations_on_sets
    (show (Double.number .negInf).isRounded = true by rfl) (show Double.negZero.isRounded = true by decide +kernel)
  have hmembers : ∀ d, d ∈ [b, a, b] ↔ d ∈ [a, b] := by
    intro d
    simp only [List.mem_cons, List.not_mem_nil, or_false]
    tauto
  refine ⟨?_, (hmeet b _).2 ⟨by decide +kernel, by decide +kernel⟩, ?_, hlists _ _ hmembers⟩
  · by_contra hnone
    have hbelow : a.le b = true := (hle b).2 fun x hx ha => by
      rw [← Bool.not_eq_false]
      exact fun hb => hnone ⟨x, hx, ha, hb⟩
    exact absurd hbelow (by decide +kernel)
  · rw [Bool.eq_false_iff, Ne, hmeet b]
    exact fun h => absurd h.2 (by decide +kernel)

end Interval

end FlowAnalysis
