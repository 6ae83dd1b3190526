import FlowAnalysis.Proofs.Segment.Order
import Mathlib.Algebra.Order.BigOperators.Group.List
import Mathlib.Order.OrderIsoNat
import Mathlib.Order.WithBot

/-!
Widening of segmented containers. A widening is above both maps, keeps a map that already covers the other one,
and no sequence of widenings changes for ever. What a map can still lose is the number of its segments and of
their finite bounds: widening a segment either keeps it or costs it a bound, merging two segments costs one of
them, and the collapse into one segment over all keys costs at least a bound of a key. An empty map can turn
into one segment once, and bottom into anything once.
-/

namespace FlowAnalysis

namespace Interval

variable {a b : Interval} {intervals : List Interval}

theorem IsWhole.widen (ha : a.IsWhole) (hb : b.IsWhole) : (a.widen b).IsWhole := by
  unfold Interval.widen
  split
  · exact hb
  · split
    · exact ha
    · refine isWhole_of ?_ ?_
      · split
        · trivial
        · exact ha.1
      · split
        · trivial
        · exact ha.2

/-- Widening by several intervals is above all of them. -/
theorem le_widen_joinAll (a : Interval) (intervals : List Interval) :
    a.le (a.widen ((joinAll intervals).join a)) = true ∧
      ∀ b ∈ intervals, b.le (a.widen ((joinAll intervals).join a)) = true := by
  refine ⟨le_widen_left _ _, fun b hb => ?_⟩
  exact Interval.le_trans (Interval.le_trans (le_joinAll hb) (le_join_left _ a)) (le_widen_right _ _)

theorem widen_joinAll_eq_left (h : ∀ b ∈ intervals, b.le a = true) :
    a.widen ((joinAll intervals).join a) = a :=
  widen_eq_left (join_le (joinAll_le h) (Interval.le_refl a))

theorem widen_joinAll_cases (ha : a.isBottom = false) :
    a.widen ((joinAll intervals).join a) = a ∨
      (a.widen ((joinAll intervals).join a)).finiteBounds < a.finiteBounds :=
  widen_eq_or_finiteBounds_lt ha (isBottom_eq_false_of_le (le_join_right _ a) ha)

end Interval

namespace Region

variable {k : Bool} {r s : Region}

/-- A widening spans the widening of the intervals, whichever way it is settled. -/
theorem Tight.widen_interval (hr : r.Tight) (hs : s.Tight) :
    (r.widen s).interval = r.interval.widen s.interval :=
  interval_getD_combined (fun _ h => Interval.widen_of_settledJoin (settledJoin_interval r s ▸ h))
    fun hri hsi => (hr hri).widen (hs hsi)

end Region

namespace Segment

variable {k : Bool} {s t : Segment} {known ss ts : List Segment}

/-! ### What segments weigh -/

/-- A segment counts once for itself and once for each finite bound of its key and its value. -/
def weight (s : Segment) : Nat := 1 + s.key.interval.finiteBounds + s.value.finiteBounds

def totalWeight (ss : List Segment) : Nat := (ss.map weight).sum

theorem weight_unbounded (integral : Bool) (value : Interval) :
    weight ⟨⟨.top, integral⟩, value⟩ = 1 + value.finiteBounds := by
  rw [weight, Interval.finiteBounds_eq_zero_iff.2 rfl, Nat.add_zero]

theorem weight_anti (h : s.le t = true) : t.weight ≤ s.weight := by
  rw [le_iff] at h
  have hkey := Interval.finiteBounds_anti h.1
  have hvalue := Interval.finiteBounds_anti h.2
  unfold weight
  omega

theorem totalWeight_cons (s : Segment) (ss : List Segment) :
    totalWeight (s :: ss) = s.weight + totalWeight ss := by
  rw [totalWeight, List.map_cons, List.sum_cons, totalWeight]

theorem totalWeight_perm (h : ss.Perm ts) : totalWeight ss = totalWeight ts :=
  (h.map weight).sum_eq

theorem weight_le_totalWeight (hs : s ∈ ss) : s.weight ≤ totalWeight ss :=
  List.single_le_sum (fun _ _ => Nat.zero_le _) _ (List.mem_map_of_mem hs)

/-- Merging does not add weight: two segments that are merged weigh no more than one of them. -/
theorem totalWeight_absorb_le (h : Tidy known) (hs : s.key.Tight) :
    totalWeight (absorb known s) ≤ totalWeight known + s.weight := by
  fun_induction absorb known s with
  | case1 known s hbottom => exact Nat.le_add_right _ _
  | case2 known s hbottom hfind =>
      rw [totalWeight_perm (List.perm_append_singleton s known), totalWeight_cons, Nat.add_comm]
  | case3 known s hbottom t hfind ih =>
      have hperm := perm_cons_eraseP hfind
      obtain ⟨ht, -, -, hothers⟩ := tidy_cons.1 (h.perm hperm)
      have hmerged := weight_anti (le_join_left ht hs)
      have hrest := ih hothers (ht.join hs)
      rw [totalWeight_perm hperm, totalWeight_cons]
      omega

theorem totalWeight_absorbAll_le (h : Tidy known) (hss : ∀ s ∈ ss, s.key.Tight) :
    totalWeight (absorbAll known ss) ≤ totalWeight known + totalWeight ss := by
  rw [absorbAll]
  induction ss generalizing known with
  | nil => exact Nat.le_add_right _ _
  | cons s ss ih =>
      obtain ⟨hs, hss⟩ := List.forall_mem_cons.1 hss
      have hrest := ih (h.absorb hs) hss
      have hfirst := totalWeight_absorb_le h hs
      rw [List.foldl_cons, totalWeight_cons]
      omega

/-- Segments that share no key are not merged. -/
theorem absorbAll_eq_append (h : Tidy (known ++ ss)) : absorbAll known ss = known ++ ss := by
  rw [absorbAll]
  induction ss generalizing known with
  | nil => rw [List.foldl_nil, List.append_nil]
  | cons s ss ih =>
      have hs : s ∈ known ++ s :: ss := List.mem_append_right _ List.mem_cons_self
      have hfind : known.find? (touches s.key) = none := by
        rw [List.find?_eq_none]
        intro u hu
        have hmem : u ∈ known ++ s :: ss := List.mem_append_left _ hu
        rw [touches_iff (h.tight u hmem) (h.tight s hs), not_not]
        exact (List.pairwise_append.1 h.apart).2.2 u hu s List.mem_cons_self
      have habsorb : absorb known s = known ++ [s] := by
        rw [absorb, if_neg (Bool.eq_false_iff.1 (h.proper s hs))]
        split
        · rfl
        · rename_i t hsome
          rw [hfind] at hsome
          cases hsome
      rw [List.append_cons] at h ⊢
      rw [List.foldl_cons, habsorb, ih h]

end Segment

namespace SegmentMap

open Segment (Tidy Within totalWeight)

variable {k : Bool} {m n w : SegmentMap} {s t : Segment} {ts : List Segment}

/-! ### Widening a segment -/

theorem widened_key (hs : s.key.OfKind k) (hts : ∀ t ∈ ts, t.key.OfKind k) :
    (widened ts s).key.interval = s.key.interval.widen ((Interval.joinAll
      (((ts.filter (Segment.touches s.key)).map Segment.key).map Region.interval)).join
        s.key.interval) := by
  have htouched : ∀ r ∈ (ts.filter (Segment.touches s.key)).map Segment.key, r.OfKind k := by
    intro r hr
    obtain ⟨t, ht, rfl⟩ := List.mem_map.1 hr
    exact hts t (List.mem_filter.1 ht).1
  have hall := hs.joinAll htouched
  rw [widened, hs.tight.widen_interval (hall.join hs).tight, hall.tight.join_interval hs.tight,
    (Region.joinAll_tight s.key fun r hr => (htouched r hr).tight).2]

theorem le_widened (hs : s.key.OfKind k) (hts : ∀ t ∈ ts, t.key.OfKind k) :
    s.le (widened ts s) = true ∧
      ∀ t ∈ ts, Segment.touches s.key t = true → t.le (widened ts s) = true := by
  simp only [Segment.le_iff, widened_key hs hts]
  refine ⟨⟨(Interval.le_widen_joinAll _ _).1, (Interval.le_widen_joinAll _ _).1⟩, fun t ht htouch => ?_⟩
  have hmem : t ∈ ts.filter (Segment.touches s.key) := List.mem_filter.2 ⟨ht, htouch⟩
  exact ⟨(Interval.le_widen_joinAll _ _).2 _ (List.mem_map_of_mem (List.mem_map_of_mem hmem)),
    (Interval.le_widen_joinAll _ _).2 _ (List.mem_map_of_mem hmem)⟩

theorem widened_eq (hs : s.key.OfKind k) (hts : ∀ t ∈ ts, t.key.OfKind k)
    (hkey : (widened ts s).key.interval = s.key.interval) (hvalue : (widened ts s).value = s.value) :
    widened ts s = s := by
  have hkey : (widened ts s).key = s.key := (widened_ofKind hs hts).ext hs hkey
  generalize widened ts s = u at hkey hvalue
  obtain ⟨key, value⟩ := u
  obtain rfl : key = s.key := hkey
  obtain rfl : value = s.value := hvalue
  rfl

/-- A segment that covers all those that it touches is kept. -/
theorem widened_eq_self (hs : s.key.OfKind k) (hts : ∀ t ∈ ts, t.key.OfKind k)
    (h : ∀ t ∈ ts, Segment.touches s.key t = true → t.le s = true) : widened ts s = s := by
  have hinside : ∀ t ∈ ts.filter (Segment.touches s.key), t.le s = true := fun t ht =>
    h t (List.mem_filter.1 ht).1 (List.mem_filter.1 ht).2
  refine widened_eq hs hts ?_ ?_
  · rw [widened_key hs hts]
    refine Interval.widen_joinAll_eq_left fun b hb => ?_
    obtain ⟨r, hr, rfl⟩ := List.mem_map.1 hb
    obtain ⟨t, ht, rfl⟩ := List.mem_map.1 hr
    exact (Segment.le_iff.1 (hinside t ht)).1
  · refine Interval.widen_joinAll_eq_left fun b hb => ?_
    obtain ⟨t, ht, rfl⟩ := List.mem_map.1 hb
    exact (Segment.le_iff.1 (hinside t ht)).2

/-- A segment that is not kept loses a finite bound. -/
theorem widened_cases (hs : s.WellFormed k) (hts : ∀ t ∈ ts, t.key.OfKind k) :
    widened ts s = s ∨ (widened ts s).weight < s.weight := by
  have hle := Segment.le_iff.1 (le_widened hs.ofKind hts).1
  have hkeyle := Interval.finiteBounds_anti hle.1
  have hvaluele := Interval.finiteBounds_anti hle.2
  have hkey : (widened ts s).key.interval = s.key.interval ∨
      (widened ts s).key.interval.finiteBounds < s.key.interval.finiteBounds := by
    rw [widened_key hs.ofKind hts]
    exact Interval.widen_joinAll_cases hs.key_proper
  have hvalue : (widened ts s).value = s.value ∨
      (widened ts s).value.finiteBounds < s.value.finiteBounds :=
    Interval.widen_joinAll_cases hs.value_proper
  unfold Segment.weight
  rcases hkey with hkey | hkey
  · rcases hvalue with hvalue | hvalue
    · exact Or.inl (widened_eq hs.ofKind hts hkey hvalue)
    · right
      omega
  · right
    omega

/-! ### Widening a map -/

/-- What a widening of proper maps can do: widen each segment, or collapse all segments into one because the
other map has a segment that touches none. -/
theorem widenSegments_cases (h : m.widenSegments n = .ok w) :
    ((∀ t ∈ n.toList, ∃ s ∈ m.toList, Segment.touches t.key s = true) ∧
      w.segments = some (Segment.absorbAll [] (m.toList.map (widened n.toList)))) ∨
    ((∃ t ∈ n.toList, ∀ s ∈ m.toList, Segment.touches t.key s = false) ∧
      w.segments = some [⟨⟨.top, m.integral⟩, m.values.join n.values⟩]) := by
  unfold widenSegments at h
  split at h
  · rename_i htouched
    refine Or.inl ⟨?_, Partitioned.segments_of_withSegments h⟩
    simpa using htouched
  · rename_i htouched
    refine Or.inr ⟨?_, Partitioned.segments_of_withSegments h⟩
    simpa using htouched

namespace Partitioned

variable {x y z : Partitioned k}

theorem tidy (x : Partitioned k) : Tidy x.1.toList := x.2.toList.tidy

theorem ofKind (x : Partitioned k) : ∀ s ∈ x.1.toList, s.key.OfKind k := fun s hs =>
  (x.2.toList.wellFormed s hs).ofKind

theorem tight (x : Partitioned k) : ∀ s ∈ x.1.toList, s.key.Tight := x.2.toList.tidy.tight

/-- Widening answers with a map above both. -/
theorem exists_widen (x y : Partitioned k) :
    ∃ w : Partitioned k, Domain.widen x.1 y.1 = .ok w.1 ∧ x ≤ w ∧ y ≤ w := by
  obtain ⟨w, hwiden, hw⟩ := x.2.widen y.2
  refine ⟨⟨w, hw⟩, hwiden, ?_⟩
  rcases Extremal.settledJoin_cases hwiden with ⟨rfl, hset⟩ | ⟨rfl, hset⟩ | ⟨-, -, hproper⟩
  · exact ⟨le_rfl, hset.elim le_of_isBottom le_of_isTop⟩
  · exact ⟨hset.elim le_of_isBottom le_of_isTop, le_rfl⟩
  · have habove : ∀ {z : Partitioned k} {ss : List Segment}, w.segments = some ss →
        Within z.1.toList ss → z ≤ ⟨w, hw⟩ := by
      intro z ss hsegments hwithin
      have hlist := toList_of_segments hsegments
      refine le_iff.2 (Or.inr ⟨by rw [isBottom_eq_false_iff, hsegments, hlist], ?_⟩)
      rwa [hlist]
    rcases widenSegments_cases hproper with ⟨htouched, hsegments⟩ | ⟨-, hsegments⟩
    · obtain ⟨-, hmerged⟩ := Tidy.nil.within_absorbAll (widened_tight x.tight y.tight)
      have hcovered : ∀ s ∈ x.1.toList, ∃ v ∈ Segment.absorbAll [] (x.1.toList.map (widened y.1.toList)),
          (widened y.1.toList s).le v = true := by
        intro s hs
        have hle := (le_widened (x.ofKind s hs) y.ofKind).1
        exact hmerged _ (List.mem_map_of_mem hs)
          (Segment.isBottom_eq_false_of_le hle (x.tidy.proper s hs))
      constructor
      · refine habove hsegments fun s hs => ?_
        obtain ⟨v, hv, hle⟩ := hcovered s hs
        exact ⟨v, hv, Segment.le_trans (le_widened (x.ofKind s hs) y.ofKind).1 hle⟩
      · refine habove hsegments fun t ht => ?_
        obtain ⟨s, hs, htouch⟩ := htouched t ht
        rw [Segment.touches_comm (x.tidy.tight s hs) (y.tidy.tight t ht)] at htouch
        obtain ⟨v, hv, hle⟩ := hcovered s hs
        exact ⟨v, hv, Segment.le_trans ((le_widened (x.ofKind s hs) y.ofKind).2 t ht htouch) hle⟩
    · constructor
      · refine habove hsegments fun s hs => ⟨_, List.mem_cons_self, ?_⟩
        exact Segment.le_iff.2 ⟨Interval.le_of_isTop rfl,
          Interval.le_trans (value_le_values hs) (Interval.le_join_left _ _)⟩
      · refine habove hsegments fun t ht => ⟨_, List.mem_cons_self, ?_⟩
        exact Segment.le_iff.2 ⟨Interval.le_of_isTop rfl,
          Interval.le_trans (value_le_values ht) (Interval.le_join_right _ _)⟩

/-- A map that is below another one leaves nothing to widen. -/
theorem widened_eq_of_within (h : Within y.1.toList x.1.toList) :
    ∀ s ∈ x.1.toList, widened y.1.toList s = s := by
  intro s hs
  refine widened_eq_self (x.ofKind s hs) y.ofKind fun t ht htouch => ?_
  obtain ⟨s', hs', hle⟩ := h t ht
  have hshared := (Segment.touches_iff (y.tidy.tight t ht) (x.tidy.tight s hs)).1 htouch
  obtain rfl : s' = s := x.tidy.eq_of_not_apart hs' hs fun happart =>
    hshared (happart.mono (Segment.le_iff.1 hle).1 (Interval.le_refl _))
  exact hle

/-- A widening that keeps every segment keeps the map. -/
theorem same_of_widened_eq {w : Partitioned k} (hx : Extremal.isBottom x.1 = false)
    (hsegments : w.1.segments =
      some (Segment.absorbAll [] (x.1.toList.map (widened y.1.toList))))
    (hkept : ∀ s ∈ x.1.toList, widened y.1.toList s = s) : w.1.same x.1 = true := by
  rw [List.map_congr_left hkept, List.map_id', Segment.absorbAll_eq_append x.tidy, List.nil_append] at hsegments
  have hlist := toList_of_segments hsegments
  refine w.2.same_iff.2 ⟨?_, hlist ▸ .refl _⟩
  rw [hx, isBottom_eq_false_iff, hsegments, hlist]

/-- Widening keeps a map that already covers the other one. -/
theorem widen_same {w : Partitioned k} (hwiden : Domain.widen x.1 y.1 = .ok w.1) (hle : y ≤ x) :
    w.1.same x.1 = true := by
  rcases Extremal.settledJoin_cases hwiden with ⟨hw, -⟩ | ⟨hw, hset⟩ | ⟨⟨hx, -⟩, ⟨hy, -⟩, hproper⟩
  · rw [hw]
    exact same_of_le (le_refl x) (le_refl x)
  · rw [hw]
    exact same_of_le hle (hset.elim le_of_isBottom le_of_isTop)
  · obtain ⟨-, hwithin⟩ := (le_iff.1 hle).resolve_left (Bool.eq_false_iff.1 hy)
    rcases widenSegments_cases hproper with ⟨-, hsegments⟩ | ⟨⟨t, ht, hfree⟩, -⟩
    · exact same_of_widened_eq hx hsegments (widened_eq_of_within hwithin)
    · obtain ⟨s, hs, hle⟩ := hwithin t ht
      have hshared := Interval.not_apart_of_le (Segment.le_iff.1 hle).1
        (Segment.isBottom_eq_false_iff.1 (y.tidy.proper t ht)).1
      have htouch := (Segment.touches_iff (y.tidy.tight t ht) (x.tidy.tight s hs)).2 hshared
      rw [Segment.touches_comm (y.tidy.tight t ht) (x.tidy.tight s hs), hfree s hs] at htouch
      cases htouch

end Partitioned

/-! ### Widening again and again -/

/-- What a map can still lose. Bottom may turn into any map, and the empty map into one segment over all keys,
whose value has two finite bounds at most. -/
def rank (m : SegmentMap) : WithTop Nat :=
  if Extremal.isBottom m then ⊤ else if m.toList = [] then 4 else totalWeight m.toList

theorem rank_of_mem (hm : Extremal.isBottom m = false) (hs : s ∈ m.toList) :
    m.rank = totalWeight m.toList := by
  rw [rank, hm, if_neg Bool.false_ne_true, if_neg (List.ne_nil_of_mem hs)]

theorem rank_lt_of_isBottom (hm : Extremal.isBottom m = false) (hn : Extremal.isBottom n = true) :
    m.rank < n.rank := by
  rw [rank, rank, hm, hn, if_neg Bool.false_ne_true, if_pos rfl]
  split
  · exact WithTop.coe_lt_top 4
  · exact WithTop.coe_lt_top _

theorem rank_of_nil (hm : Extremal.isBottom m = false) (hnil : m.toList = []) : m.rank = 4 := by
  rw [rank, hm, if_neg Bool.false_ne_true, if_pos hnil]

theorem rank_singleton (h : m.segments = some [s]) : m.rank = s.weight := by
  have hlist := toList_of_segments h
  have hproper : Extremal.isBottom m = false := by rw [isBottom_eq_false_iff, h, hlist]
  have hmem : s ∈ m.toList := hlist ▸ List.mem_singleton_self s
  rw [rank_of_mem hproper hmem, hlist, Segment.totalWeight_cons]
  rfl

theorem rank_of_isTop (h : Extremal.isTop m = true) : m.rank = 1 := by
  obtain ⟨s, hsegments, hkey, hvalue⟩ := isTop_iff.1 h
  rw [rank_singleton hsegments, Segment.weight, Interval.finiteBounds_eq_zero_iff.2 hkey,
    Interval.finiteBounds_eq_zero_iff.2 hvalue]
  rfl

theorem WellFormed.rank_eq (hm : m.WellFormed k) (h : m.same n = true) : m.rank = n.rank := by
  obtain ⟨hbottom, hperm⟩ := hm.same_iff.1 h
  rw [rank, rank, hbottom, Segment.totalWeight_perm hperm]
  simp only [← List.length_eq_zero_iff, hperm.length_eq]

theorem one_lt_rank (hbottom : Extremal.isBottom m = false) (htop : Extremal.isTop m = false) :
    1 < m.rank := by
  cases hlist : m.toList with
  | nil =>
      rw [rank_of_nil hbottom hlist]
      decide
  | cons s ss =>
      rw [rank_of_mem hbottom (hlist ▸ List.mem_cons_self), hlist, Segment.totalWeight_cons,
        Nat.one_lt_cast]
      cases ss with
      | nil =>
          have hfinite : s.key.interval.finiteBounds ≠ 0 ∨ s.value.finiteBounds ≠ 0 := by
            rw [Bool.eq_false_iff] at htop
            rw [← not_and_or, Interval.finiteBounds_eq_zero_iff, Interval.finiteBounds_eq_zero_iff]
            exact fun h => htop (isTop_iff.2 ⟨s, hlist ▸ isBottom_eq_false_iff.1 hbottom, h⟩)
          unfold Segment.weight
          omega
      | cons t ss =>
          rw [Segment.totalWeight_cons]
          unfold Segment.weight
          omega

namespace Partitioned

variable {x y w : Partitioned k}

/-- The collapse into one segment over all keys: since some key was outside of the map, no key of the map was
unbounded before. -/
theorem collapsed_rank_lt {integral : Bool} (hx : Extremal.isBottom x.1 = false)
    (hsegments : w.1.segments = some [⟨⟨.top, integral⟩, x.1.values.join y.1.values⟩])
    (hfree : ∃ t ∈ y.1.toList, ∀ s ∈ x.1.toList, Segment.touches t.key s = false) :
    w.1.rank < x.1.rank := by
  rw [rank_singleton hsegments, Segment.weight_unbounded]
  cases hlist : x.1.toList with
  | nil =>
      have hvalue := (x.1.values.join y.1.values).finiteBounds_le
      rw [rank_of_nil hx hlist]
      exact Nat.cast_lt.2 (by omega : _ < 4)
  | cons s ss =>
      have hs : s ∈ x.1.toList := hlist ▸ List.mem_cons_self
      obtain ⟨t, ht, hfree⟩ := hfree
      have hbounded : s.key.interval.finiteBounds ≠ 0 := by
        intro hzero
        have hle := Interval.le_of_isTop (a := t.key.interval) (Interval.finiteBounds_eq_zero_iff.1 hzero)
        have hproper := (Segment.isBottom_eq_false_iff.1 (y.tidy.proper t ht)).1
        have htouch := (Segment.touches_iff (y.tidy.tight t ht) (x.tidy.tight s hs)).2
          (Interval.not_apart_of_le hle hproper)
        rw [Segment.touches_comm (y.tidy.tight t ht) (x.tidy.tight s hs), hfree s hs] at htouch
        cases htouch
      have hvalue := Interval.finiteBounds_anti
        (Interval.le_trans (value_le_values hs) (Interval.le_join_left _ y.1.values))
      have hweight := Segment.weight_le_totalWeight hs
      rw [Segment.weight] at hweight
      rw [rank_of_mem hx hs, Nat.cast_lt]
      omega

/-- Widening each segment: one that is not kept has fewer finite bounds, and merging adds none. -/
theorem widened_rank_lt (hx : Extremal.isBottom x.1 = false) (hxw : x ≤ w)
    (hsegments : w.1.segments =
      some (Segment.absorbAll [] (x.1.toList.map (widened y.1.toList))))
    (hs : s ∈ x.1.toList) (hne : widened y.1.toList s ≠ s) : w.1.rank < x.1.rank := by
  have hlt := (widened_cases (x.2.toList.wellFormed s hs) y.ofKind).resolve_left hne
  have hsum : totalWeight (x.1.toList.map (widened y.1.toList)) < totalWeight x.1.toList := by
    rw [totalWeight, List.map_map]
    refine List.sum_lt_sum _ _ (fun t ht => ?_) ⟨s, hs, hlt⟩
    exact Segment.weight_anti (le_widened (x.ofKind t ht) y.ofKind).1
  have hmerged := Segment.totalWeight_absorbAll_le Tidy.nil (widened_tight x.tight y.tight)
  obtain ⟨hw, hwithin⟩ := (le_iff.1 hxw).resolve_left (Bool.eq_false_iff.1 hx)
  obtain ⟨t, ht, -⟩ := hwithin s hs
  rw [rank_of_mem hw ht, rank_of_mem hx hs, toList_of_segments hsegments, Nat.cast_lt]
  exact (hmerged.trans_eq (Nat.zero_add _)).trans_lt hsum

/-- A widening keeps the map or costs rank. -/
theorem widen_cases (hwiden : Domain.widen x.1 y.1 = .ok w.1) :
    w.1.same x.1 = true ∨ w.1.rank < x.1.rank := by
  obtain ⟨w', hwiden', hxw, -⟩ := exists_widen x y
  obtain rfl : w = w' := Subtype.ext (Except.ok.inj (hwiden.symm.trans hwiden'))
  rcases Extremal.settledJoin_cases hwiden with ⟨hw, -⟩ | ⟨heq, hset⟩ | ⟨⟨hx, -⟩, -, hproper⟩
  · obtain rfl : w = x := Subtype.ext hw
    exact Or.inl (same_of_le (le_refl w) (le_refl w))
  -- Here `y` takes the place of `x`, which was bottom, or `y` is top.
  · by_cases hwx : w ≤ x
    · exact Or.inl (same_of_le hwx hxw)
    · right
      have hw : Extremal.isBottom w.1 = false := Bool.eq_false_iff.2 (mt le_of_isBottom hwx)
      have hxtop : Extremal.isTop x.1 = false := Bool.eq_false_iff.2 (mt le_of_isTop hwx)
      obtain rfl : w = y := Subtype.ext heq
      cases hx : Extremal.isBottom x.1 with
      | true => exact rank_lt_of_isBottom hw hx
      | false =>
          have hwtop := hset.resolve_left (Bool.eq_false_iff.1 hx)
          exact (rank_of_isTop hwtop).trans_lt (one_lt_rank hx hxtop)
  · rcases widenSegments_cases hproper with ⟨-, hsegments⟩ | ⟨hfree, hsegments⟩
    · by_cases hkept : ∀ s ∈ x.1.toList, widened y.1.toList s = s
      · exact Or.inl (same_of_widened_eq hx hsegments hkept)
      · right
        push Not at hkept
        obtain ⟨s, hs, hne⟩ := hkept
        exact widened_rank_lt hx hxw hsegments hs hne
    · exact Or.inr (collapsed_rank_lt hx hsegments hfree)

end Partitioned

def widenings (m : SegmentMap) (ns : Nat → SegmentMap) : Nat → Outcome SegmentMap
  | 0 => .ok m
  | i + 1 => do Domain.widen (← widenings m ns i) (ns i)

namespace Partitioned

theorem exists_widenings (x : Partitioned k) (ys : Nat → Partitioned k) :
    ∃ xs : Nat → Partitioned k, (∀ i, widenings x.1 (fun i => (ys i).1) i = .ok (xs i).1) ∧
      ∀ i, Domain.widen (xs i).1 (ys i).1 = .ok (xs (i + 1)).1 := by
  have hanswers : ∀ i, ∃ w : Partitioned k, widenings x.1 (fun i => (ys i).1) i = .ok w.1 := by
    intro i
    induction i with
    | zero => exact ⟨x, rfl⟩
    | succ i ih =>
        obtain ⟨w, hw⟩ := ih
        obtain ⟨w', hwiden, -⟩ := exists_widen w (ys i)
        exact ⟨w', bind_eq_ok.2 ⟨w.1, hw, hwiden⟩⟩
  choose xs hxs using hanswers
  refine ⟨xs, hxs, fun i => ?_⟩
  obtain ⟨m, hm, hwiden⟩ := bind_eq_ok.1 (hxs (i + 1))
  rwa [Except.ok.inj ((hxs i).symm.trans hm)]

/-- Ranks that never grow settle, and from then on the map is kept. -/
theorem widenings_stabilize (x : Partitioned k) (ys : Nat → Partitioned k) :
    ∃ (limit : Partitioned k) (start : Nat), ∀ i ≥ start, ∃ w,
      widenings x.1 (fun i => (ys i).1) i = .ok w ∧ w.same limit.1 = true := by
  obtain ⟨xs, hxs, hstep⟩ := exists_widenings x ys
  have hantitone : Antitone fun i => (xs i).1.rank := antitone_nat_of_succ_le fun i =>
    (widen_cases (hstep i)).elim (fun h => ((xs (i + 1)).2.rank_eq h).le) LT.lt.le
  obtain ⟨start, hsettled⟩ := WellFoundedLT.antitone_chain_condition hantitone
  refine ⟨xs start, start, fun i hi => ⟨(xs i).1, hxs i, ?_⟩⟩
  -- Once the rank has settled, a step costs none and so keeps the map up to the order of its segments.
  induction i, hi using Nat.le_induction with
  | base => exact same_of_le (le_refl _) (le_refl _)
  | succ i hi ih =>
      have hrank := (hsettled i hi).symm.trans (hsettled (i + 1) (Nat.le_succ_of_le hi))
      have hkept := (widen_cases (hstep i)).resolve_right hrank.not_gt
      rw [(xs _).2.same_iff] at hkept ih ⊢
      exact ⟨hkept.1.trans ih.1, hkept.2.trans ih.2⟩

end Partitioned

/-- Widening is a widening: it is above the join, it keeps a map that covers the other one, and however often a
map is widened, from some point on it stays what it is. -/
theorem partitioned_widening (x y : Partitioned k) (ys : Nat → Partitioned k) :
    (∃ j w : Partitioned k, Domain.join x.1 y.1 = .ok j.1 ∧ Domain.widen x.1 y.1 = .ok w.1 ∧ j ≤ w ∧
      (y ≤ x → w.1.same x.1 = true)) ∧
    ∃ (limit : Partitioned k) (start : Nat), ∀ i ≥ start, ∃ w,
      widenings x.1 (fun i => (ys i).1) i = .ok w ∧ w.same limit.1 = true := by
  obtain ⟨j, hjoin, hlub⟩ := Partitioned.exists_join x y
  obtain ⟨w, hwiden, hxw, hyw⟩ := Partitioned.exists_widen x y
  have hleast := (isLUB_pair_iff.1 hlub).2
  exact ⟨⟨j, w, hjoin, hwiden, hleast w hxw hyw, Partitioned.widen_same hwiden⟩,
    Partitioned.widenings_stabilize x ys⟩

def Partitioned.ofSegment (lower upper : Int) (value : Interval) : Partitioned true :=
  ⟨.ofSegments true [⟨⟨.of (.fin lower) (.fin upper), true⟩, value⟩],
    (Obtained.ofSegments (List.forall_mem_singleton.2 (Region.of_ofKind lower upper))).wellFormed⟩

/-- A container that grows by one entry after the other. -/
theorem partitioned_widening_growing :
    ∃ x y w : Partitioned true, x.1 = ofSegments true [⟨⟨.of 0 6, true⟩, .of 1 3⟩] ∧
      y.1 = ofSegments true [⟨⟨.of 2 5, true⟩, .point 3⟩] ∧ y ≤ x ∧
      Domain.widen x.1 y.1 = .ok w.1 ∧ w.1.same x.1 = true ∧
      ∃ (limit : Partitioned true) (start : Nat), ∀ i ≥ start, ∃ w,
        widenings x.1 (fun i => ofSegments true [⟨⟨.of 0 (.fin (i : Int)), true⟩, .of 1 (.fin (i : Int))⟩]) i =
          .ok w ∧ w.same limit.1 = true := by
  have hle : Partitioned.ofSegment 2 5 (.point 3) ≤ Partitioned.ofSegment 0 6 (.of 1 3) := by
    change Domain.le (ofSegments true [⟨⟨.of 2 5, true⟩, .point 3⟩])
      (ofSegments true [⟨⟨.of 0 6, true⟩, .of 1 3⟩]) = true
    decide +kernel
  obtain ⟨⟨-, w, -, hwiden, -, hkept⟩, hlimit⟩ :=
    partitioned_widening (.ofSegment 0 6 (.of 1 3)) (.ofSegment 2 5 (.point 3))
      fun i => .ofSegment 0 i (.of 1 (.fin (i : Int)))
  exact ⟨_, _, w, rfl, rfl, hle, hwiden, hkept hle, hlimit⟩

end SegmentMap

end FlowAnalysis
