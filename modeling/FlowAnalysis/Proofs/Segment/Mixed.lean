import FlowAnalysis.Proofs.Segment.Cover

/-!
Segments over keys of both kinds. A copy can put segments of whole numbers into a container whose keys are
arbitrary, and the other way round. Joins, meets, widenings and weak updates answer whatever kinds stand side
by side. A strong update does not always: a segment of whole numbers holds no number between two of them, so
there is nothing to cut out of it, and it is kept beside a new segment that lies in its range. Where no
segment of whole numbers straddles the key, strong updates answer as well.
-/

namespace FlowAnalysis

namespace Interval

variable {q : Rat}

/-- A number that is not whole leaves no whole number. -/
theorem isBottom_integral_point (hq : ∀ n : Int, (n : Rat) ≠ q) : (point (.fin q)).integral.isBottom = true := by
  by_contra hproper
  obtain ⟨p, hp⟩ := exists_mem (Bool.not_eq_true _ ▸ hproper)
  obtain ⟨hlower, hupper⟩ := point_bounds q
  have hpoint : (point (.fin q)).isBottom = false := isBottom_eq_false_of_mem (mem_point.2 rfl)
  rw [integral, hpoint, if_neg Bool.false_ne_true, hlower, hupper, mem_of] at hp
  have hle : q.ceil ≤ q.floor := Int.cast_le.1 (Bound.fin_le_fin.1 (hp.1.trans hp.2))
  refine hq q.floor (le_antisymm (Rat.floor_le q) ?_)
  calc
    q ≤ q.ceil := Rat.le_ceil
    _ ≤ q.floor := Int.cast_le.2 hle

/-- A point either ends at whole numbers or is no whole number. -/
theorem isWhole_point_or (q : Rat) : (point (.fin q)).IsWhole ∨ ∀ n : Int, (n : Rat) ≠ q := by
  by_cases hq : ∃ n : Int, (n : Rat) = q
  · obtain ⟨n, rfl⟩ := hq
    exact Or.inl (isWhole_of ⟨n, rfl⟩ ⟨n, rfl⟩)
  · exact Or.inr (not_exists.1 hq)

end Interval

namespace Region

variable {r s : Region} {q : Rat}

theorem exists_point (h : r.isSingleton = true) : ∃ q : Rat, r.interval = .point (.fin q) := by
  obtain ⟨hproper, hbounds⟩ := Bool.and_eq_true_iff.1 h
  obtain ⟨q, hq⟩ := Interval.exists_mem (by simpa [isBottom] using hproper)
  obtain ⟨hlower, hupper⟩ := Interval.point_bounds q
  have hbounds : r.interval.lower = r.interval.upper := of_decide_eq_true hbounds
  rw [Interval.mem_iff] at hq
  refine ⟨q, Interval.ext ?_ ?_⟩
  · rw [hlower]
    exact le_antisymm hq.1 (hq.2.trans hbounds.ge)
  · rw [hupper]
    exact le_antisymm (hbounds.ge.trans hq.1) hq.2

/-- A region of whole numbers stays as it is where a number that is not whole is cut out. -/
theorem without?_fraction (hr : r.integral = true) (hs : s.interval = .point (.fin q))
    (hmem : q ∈ r.interval) (hq : ∀ n : Int, (n : Rat) ≠ q) : r.without? s = some [r] := by
  have hshared : r.interval.meet s.interval = .point (.fin q) := by
    rw [hs]
    exact Interval.meet_eq_right (Interval.point_le hmem)
  rw [without?, if_pos hr, hshared]
  exact if_pos (Interval.isBottom_integral_point hq)

end Region

namespace Segment

open Region (OfKind)

variable {key : Region} {value : Interval} {s : Segment} {ss known : List Segment} {q : Rat}

/-- What the check of a map means: no segment is empty, and no two regions share a key. -/
theorem disjoint_iff : disjoint ss = true ↔
    (∀ s ∈ ss, s.isBottom = false) ∧ ss.Pairwise fun s t => s.key.overlaps t.key = false := by
  induction ss with
  | nil => simp [disjoint]
  | cons s ss ih =>
      simp only [disjoint, Bool.and_eq_true, Bool.not_eq_true', List.all_eq_true, ih, List.forall_mem_cons,
        List.pairwise_cons]
      tauto

/-- Over keys of one kind the check finds the partitions. -/
theorem partition_iff {k : Bool} :
    Partition k ss ↔ (∀ s ∈ ss, s.key.OfKind k) ∧ disjoint ss = true := by
  refine ⟨fun h => ⟨h.ofKind, h.tidy.disjoint⟩, fun ⟨hkinds, hdisjoint⟩ => ?_⟩
  obtain ⟨hproper, hapart⟩ := disjoint_iff.1 hdisjoint
  refine ⟨fun s hs => ?_, hapart.imp fun hoverlaps => ?_⟩
  · obtain ⟨hkey, hvalue⟩ := isBottom_eq_false_iff.1 (hproper s hs)
    exact ⟨hkinds s hs, hkey, hvalue⟩
  · simpa [Region.overlaps, Region.Apart] using hoverlaps

theorem Tidy.absorbAll (h : Tidy known) (hss : ∀ s ∈ ss, s.key.Tight) : Tidy (absorbAll known ss) := by
  rw [Segment.absorbAll]
  induction ss generalizing known with
  | nil => exact h
  | cons s ss ih =>
      obtain ⟨hs, hss⟩ := List.forall_mem_cons.1 hss
      exact ih (h.absorb hs) hss

/-! ### Cutting out a single key -/

/-- A segment of whole numbers has a number in its range that is none of them. -/
def Straddles (ss : List Segment) (q : Rat) : Prop :=
  (∀ n : Int, (n : Rat) ≠ q) ∧ ∃ s ∈ ss, s.key.integral = true ∧ q ∈ s.key.interval

theorem touches_point (hs : s.key.Tight) (hkey : key.Tight) (hpoint : key.interval = .point (.fin q)) :
    touches key s = true ↔ q ∈ s.key.interval := by
  rw [touches_iff hs hkey, Interval.not_apart_iff, hpoint]
  constructor
  · rintro ⟨p, hp, hq⟩
    exact Interval.mem_point.1 hq ▸ hp
  · intro hq
    exact ⟨q, hq, Interval.mem_point.2 rfl⟩

/-- What can be cut at a key was a segment of whole numbers. -/
theorem integral_of_outside? {kept : List Segment} (h : outside? key ss = some kept) :
    ∀ s ∈ ss, touches key s = true → s.key.integral = true := by
  induction ss generalizing kept with
  | nil => exact List.forall_mem_nil _
  | cons s ss ih =>
      rw [outside?] at h
      by_cases htouch : touches key s = true
      · rw [if_pos htouch] at h
        obtain ⟨pieces, hpieces, h⟩ := Option.bind_eq_some_iff.1 h
        obtain ⟨others, hothers, -⟩ := Option.bind_eq_some_iff.1 h
        exact List.forall_mem_cons.2 ⟨fun _ => Region.integral_of_without? hpieces, ih hothers⟩
      · rw [if_neg htouch] at h
        obtain ⟨others, hothers, -⟩ := Option.bind_eq_some_iff.1 h
        exact List.forall_mem_cons.2 ⟨fun h => absurd h htouch, ih hothers⟩

/-- What is left outside a region depends on its interval alone. -/
theorem outside?_congr {key' : Region} (hss : ∀ s ∈ ss, s.key.Tight) (hkey : key.Tight) (hkey' : key'.Tight)
    (hinterval : key.interval = key'.interval) : outside? key ss = outside? key' ss := by
  induction ss with
  | nil => rfl
  | cons s ss ih =>
      obtain ⟨hs, hss⟩ := List.forall_mem_cons.1 hss
      have htouch : touches key s = touches key' s := by
        rw [Bool.eq_iff_iff, touches_iff hs hkey, touches_iff hs hkey', hinterval]
      have hwithout : s.key.without? key = s.key.without? key' := by
        rw [Region.without?, Region.without?, hinterval]
      rw [outside?, outside?, htouch, hwithout, ih hss]

/-- Where a region that ends at whole numbers is cut out, a segment over it fits in. -/
theorem Tidy.replace {kept : List Segment} (h : Tidy ss) (hkey : key.interval.IsWhole)
    (hproper : isBottom ⟨key, value⟩ = false) (hkept : Segment.outside? key ss = some kept) :
    Tidy (kept ++ [⟨key, value⟩]) := by
  -- The cut is the same as for the whole numbers of the region, which are of the kind that is cut.
  have hwhole : OfKind true ⟨key.interval, true⟩ := ⟨rfl, fun _ => hkey⟩
  have htight : key.Tight := fun _ => hkey
  rw [outside?_congr h.tight htight hwhole.tight rfl] at hkept
  have hsource := (h.outside?_spec hwhole.tight (fun _ _ _ => rfl) hkept).2
  refine (h.outside? hwhole.tight (fun _ _ _ => rfl) hkept).concat htight hproper fun u hu => ?_
  obtain ⟨_, _, rest, hu, hrest⟩ := hsource u hu
  exact hrest.apart u hu

end Segment

namespace SegmentMap

open Segment (Tidy Straddles)

variable {m n : SegmentMap} {key : Region} {value : Interval} {q : Rat}

/-- Segments that share no key, whatever their kinds. -/
def IsTidy (m : SegmentMap) : Prop := Tidy m.toList

theorem withSegments_tidy {ss : List Segment} (h : Tidy ss) : Answers IsTidy (m.withSegments ss) :=
  ⟨_, withSegments_eq h, h⟩

/-! ### Updates -/

theorem IsTidy.insert (hm : m.IsTidy) (hkey : key.Tight) (value : Interval) :
    Answers IsTidy (m.insert key value) := by
  unfold SegmentMap.insert
  split
  · exact .pure hm
  · rename_i ss hss
    rw [IsTidy, toList_of_segments hss] at hm
    exact withSegments_tidy (hm.absorb hkey)

theorem IsTidy.update (hm : m.IsTidy) (hkey : key.Tight) (value : Interval) :
    Answers IsTidy (m.update [⟨key, value⟩]) := by
  unfold SegmentMap.update
  split
  · exact .pure hm
  · rename_i ss hss
    rw [IsTidy, toList_of_segments hss] at hm
    exact withSegments_tidy (hm.refine hkey)

/-- A single key is overwritten unless a segment of whole numbers straddles it. -/
theorem IsTidy.overwrite (hm : m.IsTidy) (hkey : key.Tight) (hpoint : key.interval = .point (.fin q))
    (hfree : ¬ Straddles m.toList q) (value : Interval) : Answers IsTidy (m.overwrite key value) := by
  unfold SegmentMap.overwrite
  split
  · exact .pure hm
  rename_i ss hss
  split
  · exact .pure hm
  rename_i hbottom
  have hproper : Segment.isBottom ⟨key, value⟩ = false := Bool.eq_false_iff.2 hbottom
  split
  · rename_i kept hkept
    rw [IsTidy, toList_of_segments hss] at hm
    rw [toList_of_segments hss] at hfree
    rcases Interval.isWhole_point_or q with hwhole | hfraction
    · exact withSegments_tidy (hm.replace (hpoint ▸ hwhole) hproper hkept)
    · -- A segment that was touched could be cut, so it is one of whole numbers around the key.
      have hfar : ∀ s ∈ ss, ¬ Segment.touches key s = true := fun s hs htouch =>
        hfree ⟨hfraction, s, hs, Segment.integral_of_outside? hkept s hs htouch,
          (Segment.touches_point (hm.tight s hs) hkey hpoint).1 htouch⟩
      rw [Segment.outside?_eq_some_self fun s hs htouch => absurd htouch (hfar s hs)] at hkept
      obtain rfl := Option.some.inj hkept
      refine withSegments_tidy (hm.concat hkey hproper fun s hs => ?_)
      have happart := hfar s hs
      rwa [Segment.touches_iff (hm.tight s hs) hkey, not_not] at happart
  · exact hm.insert hkey value

/-- A segment of whole numbers that straddles the key stays, and the check fails. -/
theorem overwrite_straddles (hm : m.IsTidy) (hkey : key.Tight) (hpoint : key.interval = .point (.fin q))
    (hvalue : value.isBottom = false) (hstraddles : Straddles m.toList q) :
    m.overwrite key value = .error .overlappingSegments := by
  obtain ⟨hfraction, s, hs, hintegral, hq⟩ := hstraddles
  cases hss : m.segments with
  | none =>
      rw [toList, hss] at hs
      cases hs
  | some ss =>
      rw [IsTidy, toList_of_segments hss] at hm
      rw [toList_of_segments hss] at hs
      have hbottom : (key.isBottom || value.isBottom) = false := by
        rw [Region.isBottom, hpoint, Interval.isBottom_eq_false_of_mem (Interval.mem_point.2 rfl), hvalue]
        rfl
      -- No other segment holds the key, and this one is left as it is.
      have hkept : Segment.outside? key ss = some ss := Segment.outside?_eq_some_self fun t ht htouch => by
        have hqt := (Segment.touches_point (hm.tight t ht) hkey hpoint).1 htouch
        obtain rfl := hm.eq_of_not_apart hs ht (Interval.not_apart_iff.2 ⟨q, hq, hqt⟩)
        exact Region.without?_fraction hintegral hpoint hq hfraction
      have hoverlap : ¬ Segment.disjoint (ss ++ [⟨key, value⟩]) = true := by
        rw [Segment.disjoint_iff, List.pairwise_append]
        rintro ⟨-, -, -, hpairs⟩
        have htouch := (Segment.touches_point (hm.tight s hs) hkey hpoint).2 hq
        exact Bool.eq_false_iff.1 (hpairs s hs _ List.mem_cons_self) htouch
      rw [overwrite, hss]
      dsimp only
      rw [hbottom, if_neg Bool.false_ne_true, hkept]
      dsimp only
      rw [withSegments, if_neg hoverlap]
      rfl

/-! ### Combinations -/

theorem IsTidy.join (hm : m.IsTidy) (hn : n.IsTidy) : Answers IsTidy (Domain.join m n) :=
  Extremal.settledJoin_answers hm hn (withSegments_tidy (Tidy.absorbAll hm (Tidy.tight hn)))

theorem IsTidy.meet (hm : m.IsTidy) (hn : n.IsTidy) : Answers IsTidy (Domain.meet m n) :=
  Extremal.settledMeet_answers hm hn (withSegments_tidy (Tidy.shared hm hn))

theorem IsTidy.widenSegments (hm : m.IsTidy) (hn : n.IsTidy) : Answers IsTidy (m.widenSegments n) := by
  unfold SegmentMap.widenSegments
  split
  · exact withSegments_tidy (Tidy.nil.absorbAll (widened_tight (Tidy.tight hm) (Tidy.tight hn)))
  · rename_i hmoved
    obtain ⟨t, ht, -⟩ : ∃ t ∈ n.toList, ¬ m.toList.any (Segment.touches t.key) = true := by
      simpa using hmoved
    have hvalue : (m.values.join n.values).isBottom = false :=
      isBottom_join_values ht (Segment.isBottom_eq_false_iff.1 (Tidy.proper hn t ht)).2
    exact withSegments_tidy (Segment.tidy_cons.2 ⟨(Region.top_ofKind m.integral).tight,
      Segment.isBottom_eq_false_iff.2 ⟨rfl, hvalue⟩, List.forall_mem_nil _, .nil⟩)

theorem IsTidy.widen (hm : m.IsTidy) (hn : n.IsTidy) : Answers IsTidy (Domain.widen m n) :=
  Extremal.settledJoin_answers hm hn (hm.widenSegments hn)

end SegmentMap

end FlowAnalysis
