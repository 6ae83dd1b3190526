import FlowAnalysis.Proofs.Interval.Order
import FlowAnalysis.Proofs.Number.Arithmetic
import FlowAnalysis.Segment.Region

/-!
Regions of one kind. Joins, meets and widenings of regions of whole numbers are regions of whole numbers
again, and the pieces that are cut from one lie inside it and apart from what was cut out. Cutting moves
a bound by one, which is exact because bounds that have no neighbour among the doubles are refused.
-/

namespace FlowAnalysis

namespace Bound

/-- A bound at a whole number or at an infinity. -/
def IsWhole : Bound → Prop
  | fin q => ∃ m : Int, q = m
  | _ => True

variable {a b : Bound}

theorem isWhole_floor (b : Bound) : b.floor.IsWhole := by
  cases b with
  | fin q => exact ⟨q.floor, rfl⟩
  | _ => trivial

theorem isWhole_ceil (b : Bound) : b.ceil.IsWhole := by
  cases b with
  | fin q => exact ⟨q.ceil, rfl⟩
  | _ => trivial

theorem IsWhole.floor_eq (h : b.IsWhole) : b.floor = b := by
  cases b with
  | fin q =>
      obtain ⟨m, rfl⟩ := h
      rw [Bound.floor, Rat.floor_intCast]
  | _ => rfl

theorem IsWhole.ceil_eq (h : b.IsWhole) : b.ceil = b := by
  cases b with
  | fin q =>
      obtain ⟨m, rfl⟩ := h
      rw [Bound.ceil, Rat.ceil_intCast]
  | _ => rfl

theorem IsWhole.max (ha : a.IsWhole) (hb : b.IsWhole) : (max a b).IsWhole := by
  rcases max_choice a b with h | h <;> rwa [h]

theorem IsWhole.min (ha : a.IsWhole) (hb : b.IsWhole) : (min a b).IsWhole := by
  rcases min_choice a b with h | h <;> rwa [h]

/-- A finite whole bound is a whole number, and one that is exact has both neighbours among the doubles. -/
theorem IsWhole.exists_eq (hb : b.IsWhole) (hexact : Region.isInexact b = false) (hlower : b ≠ negInf)
    (hupper : b ≠ posInf) : ∃ m : Int, b = fin m ∧ |m| < 2 ^ 53 := by
  cases b with
  | negInf => exact absurd rfl hlower
  | posInf => exact absurd rfl hupper
  | fin q =>
      obtain ⟨m, rfl⟩ := hb
      refine ⟨m, rfl, ?_⟩
      rw [Region.isInexact, decide_eq_false_iff_not, not_le, abs_eq, Region.exactIntegers] at hexact
      exact_mod_cast hexact

/-- A whole bound that has both neighbours among the doubles is moved by exactly one. -/
theorem IsWhole.neighbours (hb : b.IsWhole) (hexact : Region.isInexact b = false) (hlower : b ≠ negInf)
    (hupper : b ≠ posInf) :
    ((b.sub 1).IsWhole ∧ b.sub 1 < b) ∧ (b.add 1).IsWhole ∧ b < b.add 1 := by
  obtain ⟨m, rfl, hm⟩ := hb.exists_eq hexact hlower hupper
  rw [sub_one_eq hm, add_one_eq hm, fin_lt_fin, fin_lt_fin]
  refine ⟨⟨⟨_, rfl⟩, ?_⟩, ⟨_, rfl⟩, ?_⟩
  · exact_mod_cast sub_one_lt m
  · exact_mod_cast lt_add_one m

end Bound

namespace Interval

/-- An interval that ends at whole numbers or infinities. -/
def IsWhole (a : Interval) : Prop := a.lower.IsWhole ∧ a.upper.IsWhole

variable {a b : Interval}

theorem isWhole_of {lower upper : Bound} (hlower : lower.IsWhole) (hupper : upper.IsWhole) :
    (of lower upper).IsWhole := by
  unfold of
  split
  · exact ⟨hlower, hupper⟩
  · exact ⟨trivial, trivial⟩

theorem isWhole_integral (a : Interval) : a.integral.IsWhole := by
  unfold integral
  split
  · rename_i h
    rw [isBottom_iff.1 h]
    exact ⟨trivial, trivial⟩
  · exact isWhole_of (Bound.isWhole_ceil _) (Bound.isWhole_floor _)

/-- The whole numbers of an interval are kept. -/
theorem mem_integral_iff {n : Int} : (n : Rat) ∈ a.integral ↔ (n : Rat) ∈ a := by
  unfold integral
  split
  · exact Iff.rfl
  · rw [mem_of, Bound.ceil_le_iff, Bound.le_floor_iff, mem_iff]

theorem IsWhole.integral_eq (h : a.IsWhole) : a.integral = a := by
  unfold integral
  split
  · rfl
  · rw [h.1.ceil_eq, h.2.floor_eq, of_eq a.canonical]

theorem IsWhole.meet (ha : a.IsWhole) (hb : b.IsWhole) : (a.meet b).IsWhole :=
  isWhole_of (ha.1.max hb.1) (ha.2.min hb.2)

theorem IsWhole.join (ha : a.IsWhole) (hb : b.IsWhole) : (a.join b).IsWhole :=
  isWhole_of (ha.1.min hb.1) (ha.2.max hb.2)

def Apart (a b : Interval) : Prop := (a.meet b).isBottom = true

theorem Apart.symm (h : a.Apart b) : b.Apart a := by rwa [Apart, meet_comm]

theorem not_apart_iff : ¬ a.Apart b ↔ ∃ q, q ∈ a ∧ q ∈ b := by
  simp only [← mem_meet]
  rw [Apart, Bool.not_eq_true]
  exact ⟨exists_mem, fun ⟨_, hq⟩ => isBottom_eq_false_of_mem hq⟩

/-- What lies inside two intervals that are apart is apart. -/
theorem Apart.mono {a' b' : Interval} (h : a.Apart b) (ha : a'.le a = true) (hb : b'.le b = true) :
    a'.Apart b' := by
  have hleft : a'.Apart b := isBottom_meet_of_le ha h
  have hboth : b'.Apart a' := isBottom_meet_of_le hb hleft.symm
  exact hboth.symm

/-- An interval that shares no number with `a` shares none with one of `b` and `c`. -/
def Between (a b c : Interval) : Prop := ∀ d : Interval, d.Apart a → d.Apart b ∨ d.Apart c

theorem between_of_lt {c : Interval} (ha : a.isBottom = false) (hb : b.upper < a.lower)
    (hc : a.upper < c.lower) : a.Between b c := by
  intro d hd
  by_contra hboth
  rw [not_or, not_apart_iff, not_apart_iff] at hboth
  obtain ⟨⟨x, hxd, hxb⟩, y, hyd, hyc⟩ := hboth
  obtain ⟨q, hq⟩ := exists_mem ha
  refine not_apart_iff.2 ⟨q, ?_, hq⟩ hd
  rw [mem_iff] at hxd hxb hyd hyc hq ⊢
  exact ⟨hxd.1.trans (hxb.2.trans (hb.le.trans hq.1)), hq.2.trans (hc.le.trans (hyc.1.trans hyd.2))⟩

theorem Between.mono {a' c : Interval} (h : a.Between b c) (hle : a.le a' = true) : a'.Between b c :=
  fun d hd => h d (hd.mono (Interval.le_refl d) hle)

theorem not_apart_of_le (hle : a.le b = true) (ha : a.isBottom = false) : ¬ a.Apart b := by
  rw [Apart, meet_comm, meet_eq_right hle, ha]
  exact Bool.false_ne_true

theorem Between.apart {c : Interval} (h : a.Between b c) (hb : b.Apart a) (hproper : b.isBottom = false) :
    b.Apart c :=
  (h b hb).resolve_left (not_apart_of_le (Interval.le_refl b) hproper)

end Interval

namespace Region

variable {k : Bool} {r s : Region}

/-- A region of whole numbers or of arbitrary ones, as `k` says. -/
structure OfKind (k : Bool) (r : Region) : Prop where
  integral_eq : r.integral = k
  whole : k = true → r.interval.IsWhole

theorem spanning_ofKind (k : Bool) (interval : Interval) : (spanning k interval).OfKind k where
  integral_eq := rfl
  whole hk := by
    subst hk
    exact Interval.isWhole_integral interval

theorem bottom_ofKind (k : Bool) : OfKind k ⟨.bottom, k⟩ := ⟨rfl, fun _ => ⟨trivial, trivial⟩⟩

theorem top_ofKind (k : Bool) : OfKind k ⟨.top, k⟩ := ⟨rfl, fun _ => ⟨trivial, trivial⟩⟩

theorem of_ofKind (lower upper : Int) : OfKind true ⟨.of (.fin lower) (.fin upper), true⟩ where
  integral_eq := rfl
  whole _ := Interval.isWhole_of ⟨lower, rfl⟩ ⟨upper, rfl⟩

/-- The ends of a region of whole numbers are whole; an arbitrary region may end anywhere. -/
def Tight (r : Region) : Prop := r.integral = true → r.interval.IsWhole

theorem OfKind.tight (h : r.OfKind k) : r.Tight := fun hintegral =>
  h.whole (h.integral_eq.symm.trans hintegral)

theorem Tight.ofKind (h : r.Tight) (hintegral : r.integral = true) : r.OfKind true :=
  ⟨hintegral, fun _ => h hintegral⟩

theorem spanning_tight (k : Bool) (interval : Interval) : (spanning k interval).Tight :=
  (spanning_ofKind k interval).tight

theorem mem_spanning {interval : Interval} {n : Int} (h : (n : Rat) ∈ interval) (k : Bool) :
    (n : Rat) ∈ (spanning k interval).interval := by
  unfold spanning
  split
  · exact Interval.mem_integral_iff.2 h
  · exact h

theorem eq_of_isSingleton (h : r.isSingleton = true) {p q : Rat} (hp : p ∈ r.interval)
    (hq : q ∈ r.interval) : p = q := by
  have hbounds : r.interval.lower = r.interval.upper := of_decide_eq_true (Bool.and_eq_true_iff.1 h).2
  rw [Interval.mem_iff, hbounds] at hp hq
  exact Bound.fin.inj (le_antisymm (hp.2.trans hq.1) (hq.2.trans hp.1))

def single (n : Int) : Region := .spanning true (.point (.fin n))

theorem single_ofKind (n : Int) : (single n).OfKind true := spanning_ofKind true _

theorem single_interval (n : Int) : (single n).interval = .point (.fin n) :=
  ((of_ofKind n n).whole rfl).integral_eq

theorem mem_single {n m : Int} : (m : Rat) ∈ (single n).interval ↔ m = n := by
  rw [single_interval, Interval.mem_point, Int.cast_inj]

theorem single_apart {n m : Int} (h : n ≠ m) : (single n).interval.Apart (single m).interval := by
  by_contra hshared
  obtain ⟨q, hn, hm⟩ := Interval.not_apart_iff.1 hshared
  rw [single_interval, Interval.mem_point] at hn hm
  exact h (Int.cast_injective (hn.symm.trans hm))

/-- A region with one whole number is known from it. -/
theorem OfKind.eq_single {n : Int} (hr : r.OfKind true) (hsingle : r.isSingleton = true)
    (hn : (n : Rat) ∈ r.interval) : r = single n := by
  have hbounds : r.interval.lower = r.interval.upper := of_decide_eq_true (Bool.and_eq_true_iff.1 hsingle).2
  have hinterval : r.interval = (single n).interval := by
    obtain ⟨hlower, hupper⟩ := Interval.point_bounds n
    rw [Interval.mem_iff, hbounds] at hn
    have hend : r.interval.upper = .fin n := le_antisymm hn.1 hn.2
    rw [single_interval]
    exact Interval.ext ((hbounds.trans hend).trans hlower.symm) (hend.trans hupper.symm)
  obtain ⟨interval, integral⟩ := r
  obtain rfl : integral = true := hr.integral_eq
  exact congrArg (Region.mk · true) hinterval

theorem combined_interval {interval : Interval}
    (hwhole : r.integral = true → s.integral = true → interval.IsWhole) :
    (combined r s interval).interval = interval := by
  unfold combined spanning
  split
  · rename_i hboth
    obtain ⟨hr, hs⟩ := Bool.and_eq_true_iff.1 hboth
    exact (hwhole hr hs).integral_eq
  · rfl

/-- What bottom or top settles for regions, it settles for their intervals. -/
theorem settledJoin_interval (r s : Region) :
    (Extremal.settledJoin r s).map interval = Extremal.settledJoin r.interval s.interval := by
  unfold Extremal.settledJoin
  rw [apply_ite (Option.map interval), apply_ite (Option.map interval)]
  rfl

theorem settledMeet_interval (r s : Region) :
    (Extremal.settledMeet r s).map interval = Extremal.settledMeet r.interval s.interval := by
  unfold Extremal.settledMeet
  rw [apply_ite (Option.map interval), apply_ite (Option.map interval)]
  rfl

/-- A region made from two spans an interval that agrees with what bottom or top settles. -/
theorem interval_getD_combined {settled : Option Region} {interval : Interval}
    (hsettled : ∀ a, settled.map Region.interval = some a → interval = a)
    (hwhole : r.integral = true → s.integral = true → interval.IsWhole) :
    (settled.getD (combined r s interval)).interval = interval := by
  cases settled with
  | none => exact combined_interval hwhole
  | some t => exact (hsettled t.interval rfl).symm

/-- A join spans the join of the intervals, whichever way it is settled. -/
theorem Tight.join_interval (hr : r.Tight) (hs : s.Tight) :
    (r.join s).interval = r.interval.join s.interval :=
  interval_getD_combined (fun _ h => Interval.join_of_settledJoin (settledJoin_interval r s ▸ h))
    fun hri hsi => (hr hri).join (hs hsi)

theorem Tight.settledJoin (hr : r.Tight) (hs : s.Tight) (interval : Interval) :
    Tight ((Extremal.settledJoin r s).getD (combined r s interval)) := by
  cases h : Extremal.settledJoin r s with
  | none => exact spanning_tight _ _
  | some t =>
      rcases Extremal.settledJoin_eq_some h with ⟨rfl, -⟩ | ⟨rfl, -⟩
      · exact hr
      · exact hs

theorem Tight.join (hr : r.Tight) (hs : s.Tight) : (r.join s).Tight := hr.settledJoin hs _

theorem Tight.widen (hr : r.Tight) (hs : s.Tight) : (r.widen s).Tight := hr.settledJoin hs _

/-- The join of several regions spans the join of their intervals. -/
theorem joinAll_tight (r : Region) {regions : List Region} (h : ∀ s ∈ regions, s.Tight) :
    (r.joinAll regions).Tight ∧
      (r.joinAll regions).interval = Interval.joinAll (regions.map Region.interval) := by
  have hbottom : Tight (Extremal.bottom r) := (bottom_ofKind r.integral).tight
  change (regions.foldl Region.join (Extremal.bottom r)).Tight ∧
    (regions.foldl Region.join (Extremal.bottom r)).interval =
      (regions.map Region.interval).foldl Interval.join (Extremal.bottom r).interval
  generalize Extremal.bottom r = known at hbottom
  induction regions generalizing known with
  | nil => exact ⟨hbottom, rfl⟩
  | cons s regions ih =>
      obtain ⟨hs, h⟩ := List.forall_mem_cons.1 h
      rw [List.foldl_cons, List.map_cons, List.foldl_cons, ← hbottom.join_interval hs]
      exact ih h _ (hbottom.join hs)

theorem OfKind.combined_eq (hr : r.OfKind k) (hs : s.OfKind k) (interval : Interval) :
    combined r s interval = spanning k interval := by
  rw [combined, hr.integral_eq, hs.integral_eq, Bool.and_self]

/-- What is settled like a join is of the kind of both regions. -/
theorem OfKind.settledJoin (hr : r.OfKind k) (hs : s.OfKind k) (interval : Interval) :
    OfKind k ((Extremal.settledJoin r s).getD (combined r s interval)) := by
  cases h : Extremal.settledJoin r s with
  | none =>
      rw [Option.getD_none, hr.combined_eq hs]
      exact spanning_ofKind k interval
  | some t =>
      rcases Extremal.settledJoin_eq_some h with ⟨rfl, -⟩ | ⟨rfl, -⟩
      · exact hr
      · exact hs

theorem OfKind.join (hr : r.OfKind k) (hs : s.OfKind k) : (r.join s).OfKind k :=
  hr.settledJoin hs _

theorem OfKind.widen (hr : r.OfKind k) (hs : s.OfKind k) : (r.widen s).OfKind k :=
  hr.settledJoin hs _

theorem OfKind.joinAll (hr : r.OfKind k) {regions : List Region} (h : ∀ s ∈ regions, s.OfKind k) :
    (r.joinAll regions).OfKind k := by
  have hbottom : OfKind k (Extremal.bottom r) := hr.integral_eq ▸ bottom_ofKind r.integral
  rw [Region.joinAll]
  generalize Extremal.bottom r = known at hbottom
  induction regions generalizing known with
  | nil => exact hbottom
  | cons s regions ih =>
      exact ih (fun t ht => h t (List.mem_cons_of_mem s ht)) _
        (hbottom.join (h s List.mem_cons_self))

/-! ### Regions that share no key -/

/-- A meet spans the meet of the intervals, whichever way it is settled. -/
theorem Tight.meet_interval (hr : r.Tight) (hs : s.Tight) :
    (r.meet s).interval = r.interval.meet s.interval :=
  interval_getD_combined (fun _ h => Interval.meet_of_settledMeet (settledMeet_interval r s ▸ h))
    fun hri hsi => (hr hri).meet (hs hsi)

theorem Tight.meet (hr : r.Tight) (hs : s.Tight) : (r.meet s).Tight := by
  unfold Region.meet
  cases h : Extremal.settledMeet r s with
  | none => exact spanning_tight _ _
  | some t =>
      rcases Extremal.settledMeet_eq_some h with ⟨rfl, -⟩ | ⟨rfl, -⟩
      · exact hr
      · exact hs

theorem OfKind.meet (hr : r.OfKind k) (hs : s.OfKind k) : (r.meet s).OfKind k := by
  unfold Region.meet
  cases h : Extremal.settledMeet r s with
  | none =>
      rw [Option.getD_none, hr.combined_eq hs]
      exact spanning_ofKind k _
  | some t =>
      rcases Extremal.settledMeet_eq_some h with ⟨rfl, -⟩ | ⟨rfl, -⟩
      · exact hr
      · exact hs

def Apart (r s : Region) : Prop := (r.meet s).isBottom = true

theorem Tight.overlaps_iff (hr : r.Tight) (hs : s.Tight) :
    r.overlaps s = true ↔ ¬ r.interval.Apart s.interval := by
  rw [overlaps, isBottom, hr.meet_interval hs, Interval.Apart, Bool.not_eq_true', Bool.not_eq_true]

theorem Tight.apart_iff (hr : r.Tight) (hs : s.Tight) : r.Apart s ↔ r.interval.Apart s.interval := by
  rw [Apart, isBottom, hr.meet_interval hs, Interval.Apart]

/-! ### Cutting -/

/-- A part of `r` outside `s`. -/
structure PieceOf (r s piece : Region) : Prop where
  ofKind : piece.OfKind true
  proper : piece.isBottom = false
  inside : piece.interval.le r.interval = true
  apart : piece.interval.Apart s.interval

theorem pieceOf_of {lower upper : Bound} (hlower : lower.IsWhole) (hupper : upper.IsWhole)
    (hproper : (Interval.of lower upper).isBottom = false)
    (hinside : r.interval.lower ≤ lower ∧ upper ≤ r.interval.upper)
    (hapart : upper < s.interval.lower ∨ s.interval.upper < lower) :
    PieceOf r s ⟨.of lower upper, true⟩ := by
  obtain ⟨hl, hu⟩ := Interval.of_bounds hproper
  refine ⟨⟨rfl, fun _ => Interval.isWhole_of hlower hupper⟩, hproper, ?_, ?_⟩
  · rw [Interval.le_iff, hl, hu]
    exact hinside
  · rcases hapart with hlt | hlt
    · exact Interval.isBottom_meet_of_lt (hu.symm ▸ hlt)
    · exact Interval.Apart.symm (Interval.isBottom_meet_of_lt (hl.symm ▸ hlt))

theorem length_around_le (r : Region) (inner : Interval) : (r.around inner).length ≤ 2 := by
  rw [around]
  refine (List.length_filter_le _ _).trans ?_
  split <;> split <;> simp

section Around

variable {inner : Interval} (hr : r.OfKind true) (hs : s.OfKind true)
  (hinner : r.interval.meet s.interval = inner) (hproper : inner.isBottom = false)

include hr hs hinner hproper

/-- The part of `r` below `s`. -/
theorem pieceOf_below (hexact : isInexact inner.lower = false) (hlt : r.interval.lower < inner.lower)
    (hpiece : (Interval.of r.interval.lower (inner.lower.sub 1)).isBottom = false) :
    PieceOf r s ⟨.of r.interval.lower (inner.lower.sub 1), true⟩ ∧
      (Interval.of r.interval.lower (inner.lower.sub 1)).upper < inner.lower := by
  subst hinner
  obtain ⟨hle, hne, -⟩ := Interval.isBottom_eq_false_iff.1 hproper
  obtain ⟨hl, hu⟩ := Interval.meet_bounds hproper
  obtain ⟨⟨hwhole, hsub⟩, -⟩ := ((hr.whole rfl).meet (hs.whole rfl)).1.neighbours hexact
    ((Bound.negInf_le _).trans_lt hlt).ne' hne
  have hstart : (r.interval.meet s.interval).lower = s.interval.lower := by
    rw [hl] at hlt ⊢
    exact max_eq_right ((lt_max_iff.1 hlt).resolve_left (lt_irrefl _)).le
  have hend : (r.interval.meet s.interval).lower ≤ r.interval.upper :=
    hle.trans (hu.trans_le (min_le_left _ _))
  refine ⟨pieceOf_of (hr.whole rfl).1 hwhole hpiece ⟨le_rfl, hsub.le.trans hend⟩
    (Or.inl (hsub.trans_eq hstart)), ?_⟩
  rw [(Interval.of_bounds hpiece).2]
  exact hsub

/-- The part of `r` above `s`. -/
theorem pieceOf_above (hexact : isInexact inner.upper = false) (hlt : inner.upper < r.interval.upper)
    (hpiece : (Interval.of (inner.upper.add 1) r.interval.upper).isBottom = false) :
    PieceOf r s ⟨.of (inner.upper.add 1) r.interval.upper, true⟩ ∧
      inner.upper < (Interval.of (inner.upper.add 1) r.interval.upper).lower := by
  subst hinner
  obtain ⟨hle, -, hne⟩ := Interval.isBottom_eq_false_iff.1 hproper
  obtain ⟨hl, hu⟩ := Interval.meet_bounds hproper
  obtain ⟨-, hwhole, hadd⟩ := ((hr.whole rfl).meet (hs.whole rfl)).2.neighbours hexact hne
    (hlt.trans_le (Bound.le_posInf _)).ne
  have hend : (r.interval.meet s.interval).upper = s.interval.upper := by
    rw [hu] at hlt ⊢
    exact min_eq_right ((min_lt_iff.1 hlt).resolve_left (lt_irrefl _)).le
  have hstart : r.interval.lower ≤ (r.interval.meet s.interval).upper :=
    ((le_max_left _ _).trans_eq hl.symm).trans hle
  refine ⟨pieceOf_of hwhole (hr.whole rfl).2 hpiece ⟨hstart.trans hadd.le, le_rfl⟩
    (Or.inr (hend.symm.trans_lt hadd)), ?_⟩
  rw [(Interval.of_bounds hpiece).1]
  exact hadd

/-- The parts below and above lie on the two sides of what is cut out. -/
theorem around_pieces (hlower : isInexact inner.lower = false) (hupper : isInexact inner.upper = false) :
    ((r.around inner).Pairwise fun p q => s.interval.Between p.interval q.interval) ∧
      ∀ piece ∈ r.around inner, PieceOf r s piece := by
  have hbelow : ∀ piece ∈ (if r.interval.lower < inner.lower
      then [(⟨.of r.interval.lower (inner.lower.sub 1), true⟩ : Region)] else []),
      piece.isBottom = false → PieceOf r s piece ∧ piece.interval.upper < inner.lower := by
    intro piece hmem hpiece
    split at hmem
    · rename_i hlt
      obtain rfl := List.mem_singleton.1 hmem
      exact pieceOf_below hr hs hinner hproper hlower hlt hpiece
    · cases hmem
  have habove : ∀ piece ∈ (if inner.upper < r.interval.upper
      then [(⟨.of (inner.upper.add 1) r.interval.upper, true⟩ : Region)] else []),
      piece.isBottom = false → PieceOf r s piece ∧ inner.upper < piece.interval.lower := by
    intro piece hmem hpiece
    split at hmem
    · rename_i hlt
      obtain rfl := List.mem_singleton.1 hmem
      exact pieceOf_above hr hs hinner hproper hupper hlt hpiece
    · cases hmem
  rw [around, hr.integral_eq]
  constructor
  · rw [List.pairwise_filter, List.pairwise_append]
    refine ⟨by split <;> simp, by split <;> simp, ?_⟩
    intro low hlow high hhigh hlowproper hhighproper
    have hlowlt := (hbelow low hlow (by simpa using hlowproper)).2
    have hhighlt := (habove high hhigh (by simpa using hhighproper)).2
    exact (Interval.between_of_lt hproper hlowlt hhighlt).mono (hinner ▸ Interval.meet_le_right _ _)
  · intro piece hpiece
    obtain ⟨hmem, hbottom⟩ := List.mem_filter.1 hpiece
    have hbottom : piece.isBottom = false := by simpa using hbottom
    rcases List.mem_append.1 hmem with hmem | hmem
    · exact (hbelow piece hmem hbottom).1
    · exact (habove piece hmem hbottom).1

/-- No whole number lies between the parts and what is cut out. -/
theorem exists_mem_around (hlower : isInexact inner.lower = false)
    (hupper : isInexact inner.upper = false) {n : Int} (hn : (n : Rat) ∈ r.interval)
    (hout : ¬ (n : Rat) ∈ s.interval) : ∃ piece ∈ r.around inner, (n : Rat) ∈ piece.interval := by
  have hwhole : inner.IsWhole := hinner ▸ (hr.whole rfl).meet (hs.whole rfl)
  obtain ⟨-, hlowerfin, hupperfin⟩ := Interval.isBottom_eq_false_iff.1 hproper
  have houtside : .fin (n : Rat) < inner.lower ∨ inner.upper < .fin (n : Rat) := by
    rw [← not_le, ← not_le, ← not_and_or, ← Interval.mem_iff, ← hinner, Interval.mem_meet]
    exact fun h => hout h.2
  have hmem : ∀ {piece : Region}, (n : Rat) ∈ piece.interval → (!piece.isBottom) = true := fun h => by
    rw [isBottom, Interval.isBottom_eq_false_of_mem h, Bool.not_false]
  obtain ⟨hstart, hend⟩ := Interval.mem_iff.1 hn
  rcases houtside with hlt | hlt
  · obtain ⟨m, hm, hsmall⟩ := hwhole.1.exists_eq hlower (Bound.ne_negInf_of_fin_le hlt.le) hlowerfin
    have hpiece : (n : Rat) ∈ Interval.of r.interval.lower (inner.lower.sub 1) := by
      rw [hm, Bound.fin_lt_fin, Int.cast_lt] at hlt
      rw [Interval.mem_of, hm, Bound.sub_one_eq hsmall, Bound.fin_le_fin, Int.cast_le]
      exact ⟨hstart, by omega⟩
    refine ⟨⟨.of r.interval.lower (inner.lower.sub 1), r.integral⟩, ?_, hpiece⟩
    refine List.mem_filter.2 ⟨List.mem_append_left _ ?_, hmem hpiece⟩
    rw [if_pos (hstart.trans_lt hlt)]
    exact List.mem_singleton_self _
  · obtain ⟨m, hm, hsmall⟩ := hwhole.2.exists_eq hupper hupperfin (Bound.ne_posInf_of_le_fin hlt.le)
    have hpiece : (n : Rat) ∈ Interval.of (inner.upper.add 1) r.interval.upper := by
      rw [hm, Bound.fin_lt_fin, Int.cast_lt] at hlt
      rw [Interval.mem_of, hm, Bound.add_one_eq hsmall, Bound.fin_le_fin, Int.cast_le]
      exact ⟨by omega, hend⟩
    refine ⟨⟨.of (inner.upper.add 1) r.interval.upper, r.integral⟩, ?_, hpiece⟩
    refine List.mem_filter.2 ⟨List.mem_append_right _ ?_, hmem hpiece⟩
    rw [if_pos (hlt.trans_le hend)]
    exact List.mem_singleton_self _

end Around

/-- What is left of `r` outside `s`: one piece below and one above at most, and no whole number is lost. -/
structure Cut (r s : Region) (pieces : List Region) : Prop where
  length_le : pieces.length ≤ 2
  between : pieces.Pairwise fun p q => s.interval.Between p.interval q.interval
  pieceOf : ∀ piece ∈ pieces, PieceOf r s piece
  covers : ∀ n : Int, (n : Rat) ∈ r.interval → ¬ (n : Rat) ∈ s.interval →
    ∃ piece ∈ pieces, (n : Rat) ∈ piece.interval

/-- The pieces share no key: each is apart from what lies between them. -/
theorem Cut.apart {pieces : List Region} (h : Cut r s pieces) :
    pieces.Pairwise fun p q => p.interval.Apart q.interval :=
  h.between.imp_of_mem fun hp _ hbetween => hbetween.apart (h.pieceOf _ hp).apart (h.pieceOf _ hp).proper

theorem integral_of_without? {pieces : List Region} (h : r.without? s = some pieces) :
    r.integral = true := by
  rw [without?] at h
  split at h
  · assumption
  · cases h

/-- Cutting a region of whole numbers out of another one. -/
theorem without?_cut (hr : r.OfKind true) (hs : s.OfKind true) (hproper : r.isBottom = false)
    {pieces : List Region} (h : r.without? s = some pieces) : Cut r s pieces := by
  rw [without?, if_pos hr.integral_eq, ((hr.whole rfl).meet (hs.whole rfl)).integral_eq] at h
  dsimp only at h
  split at h
  · rename_i hbottom
    obtain rfl := Option.some.inj h
    refine ⟨Nat.le_succ 1, List.pairwise_singleton _ _, fun piece hpiece => ?_, fun n hn _ => ?_⟩
    · obtain rfl := List.mem_singleton.1 hpiece
      exact ⟨hr, hproper, Interval.le_refl _, hbottom⟩
    · exact ⟨r, List.mem_singleton_self r, hn⟩
  · rename_i hbottom
    split at h
    · cases h
    · rename_i hexact
      obtain rfl := Option.some.inj h
      have hbottom := Bool.eq_false_iff.2 hbottom
      obtain ⟨hlower, hupper⟩ := Bool.or_eq_false_iff.1 (Bool.eq_false_iff.2 hexact)
      obtain ⟨hbetween, hpieces⟩ := around_pieces hr hs rfl hbottom hlower hupper
      exact ⟨r.length_around_le _, hbetween, hpieces, fun n hn hout =>
        exists_mem_around hr hs rfl hbottom hlower hupper hn hout⟩

end Region

end FlowAnalysis
