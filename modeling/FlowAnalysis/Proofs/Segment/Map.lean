import FlowAnalysis.Proofs.Segment.Partition

/-!
Segmented containers stay partitioned. A map is well formed if its segments are a partition over keys of
its kind. Every operation on well-formed maps answers, and answers with a well-formed map: the check that
segments are disjoint never fails, whatever a map was made from and whatever happened to it.
-/

namespace FlowAnalysis

namespace SegmentMap

open Segment (Partition)
open Region (OfKind)

variable {k : Bool} {m n : SegmentMap}

/-- The segments of a map, if it has any, are a partition over keys of the kind of the map. -/
structure WellFormed (k : Bool) (m : SegmentMap) : Prop where
  integral_eq : m.integral = k
  partition : ∀ ss, m.segments = some ss → Partition k ss

theorem WellFormed.toList (hm : m.WellFormed k) : Partition k m.toList := by
  cases hsegments : m.segments with
  | none =>
      rw [SegmentMap.toList, hsegments]
      exact .nil
  | some ss =>
      rw [SegmentMap.toList, hsegments]
      exact hm.partition ss hsegments

theorem wellFormed_of_partition {ss : List Segment} (h : Partition k ss) :
    WellFormed k ⟨k, some ss⟩ :=
  ⟨rfl, fun _ hss => Option.some.inj hss ▸ h⟩

theorem full_wellFormed (k : Bool) : (full k).WellFormed k :=
  wellFormed_of_partition (.singleton ⟨Region.top_ofKind k, rfl, rfl⟩)

theorem bottom_wellFormed (hm : m.WellFormed k) : WellFormed k (Extremal.bottom m) :=
  ⟨hm.integral_eq, nofun⟩

/-- The operation answers with a well-formed map. -/
def Yields (k : Bool) (outcome : Outcome SegmentMap) : Prop :=
  ∃ m, outcome = .ok m ∧ m.WellFormed k

theorem Yields.wellFormed {outcome : Outcome SegmentMap} (h : Yields k outcome)
    (hm : outcome = .ok m) : m.WellFormed k := by
  obtain ⟨m', rfl, hm'⟩ := h
  exact Except.ok.inj hm ▸ hm'

theorem WellFormed.withSegments {ss : List Segment} (hm : m.WellFormed k) (h : Partition k ss) :
    Yields k (m.withSegments ss) := by
  rw [SegmentMap.withSegments, if_pos h.tidy.disjoint, hm.integral_eq]
  exact ⟨_, rfl, wellFormed_of_partition h⟩

/-! ### Updates -/

theorem WellFormed.insert {key : Region} (hm : m.WellFormed k) (hkey : key.OfKind k)
    (value : Interval) : Yields k (m.insert key value) := by
  unfold SegmentMap.insert
  split
  · exact ⟨m, rfl, hm⟩
  · rename_i ss hss
    exact hm.withSegments ((hm.partition ss hss).absorb hkey)

theorem WellFormed.overwrite {key : Region} (hm : m.WellFormed k) (hkey : key.OfKind k)
    (value : Interval) : Yields k (m.overwrite key value) := by
  unfold SegmentMap.overwrite
  split
  · exact ⟨m, rfl, hm⟩
  · rename_i ss hss
    split
    · exact ⟨m, rfl, hm⟩
    · rename_i hbottom
      split
      · rename_i kept hkept
        have hproper : Segment.isBottom ⟨key, value⟩ = false := Bool.eq_false_iff.2 hbottom
        exact hm.withSegments ((hm.partition ss hss).replace hkey hproper hkept)
      · exact hm.insert hkey value

theorem WellFormed.update {updates : List Segment} (hm : m.WellFormed k)
    (hupdates : ∀ s ∈ updates, s.key.OfKind k) : Yields k (m.update updates) := by
  unfold SegmentMap.update
  split
  · exact ⟨m, rfl, hm⟩
  · rename_i ss hss
    exact hm.withSegments ((hm.partition ss hss).refineAll hupdates)

/-! ### Combinations -/

theorem WellFormed.settledJoin {proper : Outcome SegmentMap} (hm : m.WellFormed k)
    (hn : n.WellFormed k) (h : Yields k proper) :
    Yields k ((Extremal.settledJoin m n).elim proper pure) :=
  Extremal.settledJoin_answers hm hn h

theorem WellFormed.join (hm : m.WellFormed k) (hn : n.WellFormed k) : Yields k (Domain.join m n) := by
  refine hm.settledJoin hn (hm.withSegments (hm.toList.absorbAll fun t ht => ?_))
  exact (hn.toList.wellFormed t ht).ofKind

theorem WellFormed.meet (hm : m.WellFormed k) (hn : n.WellFormed k) : Yields k (Domain.meet m n) :=
  Extremal.settledMeet_answers hm hn (hm.withSegments (hm.toList.shared hn.toList))

theorem widened_ofKind {ts : List Segment} {s : Segment} (hs : s.key.OfKind k)
    (hts : ∀ t ∈ ts, t.key.OfKind k) : (widened ts s).key.OfKind k := by
  refine hs.widen ((hs.joinAll fun key hkey => ?_).join hs)
  obtain ⟨t, ht, rfl⟩ := List.mem_map.1 hkey
  exact hts t (List.mem_filter.1 ht).1

theorem widened_tight {ss ts : List Segment} (hss : ∀ s ∈ ss, s.key.Tight) (hts : ∀ t ∈ ts, t.key.Tight) :
    ∀ u ∈ ss.map (widened ts), u.key.Tight := by
  intro u hu
  obtain ⟨s, hs, rfl⟩ := List.mem_map.1 hu
  refine (hss s hs).widen (Region.Tight.join (Region.joinAll_tight _ fun key hkey => ?_).1 (hss s hs))
  obtain ⟨t, ht, rfl⟩ := List.mem_map.1 hkey
  exact hts t (List.mem_filter.1 ht).1

/-- The value of a segment is among the values of its map. -/
theorem value_le_values {t : Segment} (ht : t ∈ n.toList) : t.value.le n.values = true :=
  Interval.le_joinAll (List.mem_map_of_mem ht)

theorem isBottom_join_values {t : Segment} (ht : t ∈ n.toList) (hproper : t.value.isBottom = false) :
    (m.values.join n.values).isBottom = false :=
  Interval.isBottom_eq_false_of_le
    (Interval.le_trans (value_le_values ht) (Interval.le_join_right _ _)) hproper

theorem WellFormed.widenSegments (hm : m.WellFormed k) (hn : n.WellFormed k) :
    Yields k (m.widenSegments n) := by
  unfold SegmentMap.widenSegments
  split
  · refine hm.withSegments (Partition.nil.absorbAll fun u hu => ?_)
    obtain ⟨s, hs, rfl⟩ := List.mem_map.1 hu
    exact widened_ofKind (hm.toList.wellFormed s hs).ofKind fun t ht =>
      (hn.toList.wellFormed t ht).ofKind
  · rename_i hmoved
    -- A segment of `n` that touches nothing is not empty, so the joined value is not bottom.
    obtain ⟨t, ht, -⟩ : ∃ t ∈ n.toList, ¬ m.toList.any (Segment.touches t.key) = true := by
      simpa using hmoved
    have hvalue : (m.values.join n.values).isBottom = false :=
      isBottom_join_values ht (hn.toList.wellFormed t ht).value_proper
    exact hm.withSegments (.singleton ⟨hm.integral_eq ▸ Region.top_ofKind m.integral, rfl, hvalue⟩)

theorem WellFormed.widen (hm : m.WellFormed k) (hn : n.WellFormed k) :
    Yields k (Domain.widen m n) :=
  hm.settledJoin hn (hm.widenSegments hn)

/-! ### Histories -/

/-- The maps over keys of a kind that come about: those made from any segments, and what the operations
answer on maps that came about. -/
inductive Obtained (k : Bool) : SegmentMap → Prop where
  | full : Obtained k (full k)
  | empty : Obtained k (empty k)
  | ofSegments {segments : List Segment} (hsegments : ∀ s ∈ segments, s.key.OfKind k) :
      Obtained k (ofSegments k segments)
  | bottom {m : SegmentMap} (hm : Obtained k m) : Obtained k (Extremal.bottom m)
  | top {m : SegmentMap} (hm : Obtained k m) : Obtained k (Extremal.top m)
  | insert {m m' : SegmentMap} {key : Region} {value : Interval} (hm : Obtained k m)
      (hkey : key.OfKind k) (h : m.insert key value = .ok m') : Obtained k m'
  | overwrite {m m' : SegmentMap} {key : Region} {value : Interval} (hm : Obtained k m)
      (hkey : key.OfKind k) (h : m.overwrite key value = .ok m') : Obtained k m'
  | update {m m' : SegmentMap} {updates : List Segment} (hm : Obtained k m)
      (hupdates : ∀ s ∈ updates, s.key.OfKind k) (h : m.update updates = .ok m') : Obtained k m'
  | join {m n m' : SegmentMap} (hm : Obtained k m) (hn : Obtained k n)
      (h : Domain.join m n = .ok m') : Obtained k m'
  | meet {m n m' : SegmentMap} (hm : Obtained k m) (hn : Obtained k n)
      (h : Domain.meet m n = .ok m') : Obtained k m'
  | widen {m n m' : SegmentMap} (hm : Obtained k m) (hn : Obtained k n)
      (h : Domain.widen m n = .ok m') : Obtained k m'

theorem Obtained.wellFormed (h : Obtained k m) : m.WellFormed k := by
  induction h with
  | full => exact full_wellFormed k
  | empty => exact wellFormed_of_partition .nil
  | ofSegments hsegments => exact wellFormed_of_partition (Partition.nil.absorbAll hsegments)
  | bottom _ ih => exact bottom_wellFormed ih
  | top _ ih => exact ih.integral_eq ▸ full_wellFormed _
  | insert _ hkey h ih => exact (ih.insert hkey _).wellFormed h
  | overwrite _ hkey h ih => exact (ih.overwrite hkey _).wellFormed h
  | update _ hupdates h ih => exact (ih.update hupdates).wellFormed h
  | join _ _ h ihm ihn => exact (ihm.join ihn).wellFormed h
  | meet _ _ h ihm ihn => exact (ihm.meet ihn).wellFormed h
  | widen _ _ h ihm ihn => exact (ihm.widen ihn).wellFormed h

theorem Yields.answers {outcome : Outcome SegmentMap} (h : Yields k outcome) :
    ∃ m, outcome = .ok m :=
  h.imp fun _ => And.left

/-- However a map came about, the keys of its segments are pairwise disjoint, no segment has an empty key
or an empty value, and whole-number keys end at whole numbers or infinities. Every operation on it
answers: the segments that it checks are always disjoint. -/
theorem obtained_partitioned (hm : Obtained k m) :
    (∀ ss, m.segments = some ss →
      (ss.Pairwise fun s t => (s.key.meet t.key).isBottom = true) ∧
      ∀ s ∈ ss, s.key.isBottom = false ∧ s.value.isBottom = false ∧ s.key.integral = k ∧
        (k = true → s.key.interval.lower.IsWhole ∧ s.key.interval.upper.IsWhole)) ∧
    (∀ key value, key.OfKind k →
      (∃ m', m.insert key value = .ok m') ∧ ∃ m', m.overwrite key value = .ok m') ∧
    (∀ updates, (∀ s ∈ updates, s.key.OfKind k) → ∃ m', m.update updates = .ok m') ∧
    ∀ n, Obtained k n → (∃ m', Domain.join m n = .ok m') ∧ (∃ m', Domain.meet m n = .ok m') ∧
      ∃ m', Domain.widen m n = .ok m' := by
  have hwf := hm.wellFormed
  refine ⟨fun ss hss => ?_, fun key value hkey => ?_, fun updates hupdates => ?_, fun n hn => ?_⟩
  · obtain ⟨hsegments, happart⟩ := hwf.partition ss hss
    refine ⟨happart, fun s hs => ?_⟩
    have hs := hsegments s hs
    exact ⟨hs.key_proper, hs.value_proper, hs.ofKind.integral_eq, hs.ofKind.whole⟩
  · exact ⟨(hwf.insert hkey value).answers, (hwf.overwrite hkey value).answers⟩
  · exact (hwf.update hupdates).answers
  · have hwf' := hn.wellFormed
    exact ⟨(hwf.join hwf').answers, (hwf.meet hwf').answers, (hwf.widen hwf').answers⟩

/-- Overwriting the keys from 3 to 5 of every container. -/
theorem obtained_partitioned_overwritten :
    ∃ m, (full true).overwrite (.spanning true (.of 3 5)) (.point 7) = .ok m ∧
      m.segments = some [⟨⟨.of .negInf 2, true⟩, .top⟩, ⟨⟨.of 6 .posInf, true⟩, .top⟩,
        ⟨⟨.of 3 5, true⟩, .point 7⟩] ∧
      Obtained true m ∧
      (m.toList.Pairwise fun s t => (s.key.meet t.key).isBottom = true) ∧
      ∃ m', Domain.widen m (full true) = .ok m' := by
  have hsegments : ((full true).overwrite (.spanning true (.of 3 5)) (.point 7)).toOption.map
      segments = some (some [⟨⟨.of .negInf 2, true⟩, .top⟩, ⟨⟨.of 6 .posInf, true⟩, .top⟩,
        ⟨⟨.of 3 5, true⟩, .point 7⟩]) := by
    decide +kernel
  cases h : (full true).overwrite (.spanning true (.of 3 5)) (.point 7) with
  | error e =>
      rw [h] at hsegments
      cases hsegments
  | ok m =>
      rw [h] at hsegments
      have hm : Obtained true m := .overwrite .full (Region.spanning_ofKind _ _) h
      have hsegments := Option.some.inj hsegments
      obtain ⟨hpartition, -, -, hcombine⟩ := obtained_partitioned hm
      refine ⟨m, rfl, hsegments, hm, ?_, (hcombine _ .full).2.2⟩
      rw [toList, hsegments]
      exact (hpartition _ hsegments).1

end SegmentMap

end FlowAnalysis
