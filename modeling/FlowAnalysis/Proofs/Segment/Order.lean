import FlowAnalysis.Proofs.Segment.Map
import Mathlib.Data.List.Perm.Subperm
import Mathlib.Order.Bounds.Basic

/-!
The lattice of segmented containers. A map is below another if each of its segments lies inside a single
segment of the other one. Because the segments of a map share no key, segments that overlap can only lie
inside the same one, and so merging overlapping segments, chain after chain, makes the least map above two
others. The segments that two maps share make the greatest map below both.
-/

namespace FlowAnalysis

section Bounds

variable {α : Type} [Preorder α] {x y z j j' a a' : α}

theorem isLUB_pair_iff :
    IsLUB {x, y} j ↔ (x ≤ j ∧ y ≤ j) ∧ ∀ z, x ≤ z → y ≤ z → j ≤ z := by
  simp [IsLUB, IsLeast, upperBounds, lowerBounds]

/-- Of three elements it does not matter which two are joined first. -/
theorem isLUB_assoc (hj : IsLUB {x, y} j) (ha : IsLUB {j, z} a) (hj' : IsLUB {y, z} j')
    (ha' : IsLUB {x, j'} a') : a ≤ a' ∧ a' ≤ a := by
  obtain ⟨⟨hxj, hyj⟩, hj⟩ := isLUB_pair_iff.1 hj
  obtain ⟨⟨hja, hza⟩, ha⟩ := isLUB_pair_iff.1 ha
  obtain ⟨⟨hyj', hzj'⟩, hj'⟩ := isLUB_pair_iff.1 hj'
  obtain ⟨⟨hxa', hja'⟩, ha'⟩ := isLUB_pair_iff.1 ha'
  constructor
  · exact ha a' (hj a' hxa' (hyj'.trans hja')) (hzj'.trans hja')
  · exact ha' a (hxj.trans hja) (hj' a (hyj.trans hja) hza)

/-- Of two elements the other one joins nothing to the greater. -/
theorem isLUB_of_le (h : y ≤ x) : IsLUB {x, y} x ∧ IsLUB {y, x} x :=
  ⟨isLUB_pair_iff.2 ⟨⟨le_rfl, h⟩, fun _ hx _ => hx⟩, isLUB_pair_iff.2 ⟨⟨h, le_rfl⟩, fun _ _ hx => hx⟩⟩

end Bounds

/-- Regions are compared by their intervals, whichever way it is settled. -/
theorem Region.le_eq (r s : Region) : r.le s = r.interval.le s.interval := by
  rw [Bool.eq_iff_iff, Region.le, Extremal.settledLe_getD_iff]
  constructor
  · rintro (hbottom | htop | ⟨-, -, hle⟩)
    · exact Interval.le_of_isBottom hbottom
    · exact Interval.le_of_isTop htop
    · exact hle
  · intro hle
    cases hbottom : r.interval.isBottom with
    | true => exact Or.inl hbottom
    | false =>
        cases htop : s.interval.isTop with
        | true => exact Or.inr (Or.inl htop)
        | false =>
            refine Or.inr (Or.inr ⟨Interval.isBottom_eq_false_of_le hle hbottom, ?_, hle⟩)
            rw [← Bool.not_eq_true] at htop ⊢
            exact fun hr => htop (Interval.isTop_of_le hle hr)

/-- Regions of a kind differ in their intervals alone. -/
theorem Region.OfKind.ext {k : Bool} {r s : Region} (hr : r.OfKind k) (hs : s.OfKind k)
    (h : r.interval = s.interval) : r = s := by
  obtain ⟨interval, integral⟩ := r
  obtain rfl : interval = s.interval := h
  obtain rfl : integral = s.integral := hr.integral_eq.trans hs.integral_eq.symm
  rfl

namespace Segment

variable {k : Bool} {s t u : Segment} {known ss ts us : List Segment}

/-! ### Segments inside segments -/

theorem le_iff :
    s.le t = true ↔ s.key.interval.le t.key.interval = true ∧ s.value.le t.value = true := by
  rw [le, Bool.and_eq_true, Region.le_eq]

protected theorem le_refl (s : Segment) : s.le s = true :=
  le_iff.2 ⟨Interval.le_refl _, Interval.le_refl _⟩

protected theorem le_trans (hst : s.le t = true) (htu : t.le u = true) : s.le u = true := by
  rw [le_iff] at hst htu ⊢
  exact ⟨Interval.le_trans hst.1 htu.1, Interval.le_trans hst.2 htu.2⟩

protected theorem le_antisymm (hs : s.key.OfKind k) (ht : t.key.OfKind k) (hst : s.le t = true)
    (hts : t.le s = true) : s = t := by
  rw [le_iff] at hst hts
  have hkey : s.key = t.key := hs.ext ht (Interval.le_antisymm hst.1 hts.1)
  have hvalue : s.value = t.value := Interval.le_antisymm hst.2 hts.2
  obtain ⟨key, value⟩ := s
  obtain rfl : key = t.key := hkey
  obtain rfl : value = t.value := hvalue
  rfl

theorem le_join_left (hs : s.key.Tight) (ht : t.key.Tight) : s.le (s.join t) = true := by
  rw [le_iff, join, hs.join_interval ht]
  exact ⟨Interval.le_join_left _ _, Interval.le_join_left _ _⟩

theorem le_join_right (hs : s.key.Tight) (ht : t.key.Tight) : t.le (s.join t) = true := by
  rw [le_iff, join, hs.join_interval ht]
  exact ⟨Interval.le_join_right _ _, Interval.le_join_right _ _⟩

theorem join_le (hs : s.key.Tight) (ht : t.key.Tight) (hsu : s.le u = true) (htu : t.le u = true) :
    (s.join t).le u = true := by
  rw [le_iff] at hsu htu
  rw [le_iff, join, hs.join_interval ht]
  exact ⟨Interval.join_le hsu.1 htu.1, Interval.join_le hsu.2 htu.2⟩

/-- Each segment of the first list lies inside a segment of the second. -/
def Within (ss ts : List Segment) : Prop := ∀ s ∈ ss, ∃ t ∈ ts, s.le t = true

theorem Within.refl (ss : List Segment) : Within ss ss := fun s hs => ⟨s, hs, s.le_refl⟩

theorem Within.trans (hst : Within ss ts) (htu : Within ts us) : Within ss us := by
  intro s hs
  obtain ⟨t, ht, hle⟩ := hst s hs
  obtain ⟨u, hu, hle'⟩ := htu t ht
  exact ⟨u, hu, Segment.le_trans hle hle'⟩

theorem isBottom_eq_false_of_le (hle : s.le t = true) (hs : s.isBottom = false) :
    t.isBottom = false := by
  rw [le_iff] at hle
  rw [isBottom_eq_false_iff] at hs ⊢
  exact ⟨Interval.isBottom_eq_false_of_le hle.1 hs.1, Interval.isBottom_eq_false_of_le hle.2 hs.2⟩

/-! ### Segments that share no key -/

/-- Segments that share a key are the same. -/
theorem Tidy.eq_of_not_apart (h : Tidy ss) (hs : s ∈ ss) (ht : t ∈ ss)
    (hshared : ¬ s.key.interval.Apart t.key.interval) : s = t := by
  by_contra hne
  have hsymm : Std.Symm fun s t : Segment => s.key.interval.Apart t.key.interval :=
    ⟨fun _ _ happart => happart.symm⟩
  exact hshared (h.apart.forall hs ht hne)

theorem Tidy.nodup (h : Tidy ss) : ss.Nodup := by
  refine h.apart.imp_of_mem fun {s t} hs _ happart heq => ?_
  subst heq
  have hproper := (isBottom_eq_false_iff.1 (h.proper s hs)).1
  exact Interval.not_apart_of_le (Interval.le_refl _) hproper happart

/-- A segment lies inside at most one of several that share no key. -/
theorem Tidy.eq_of_le (h : Tidy ts) (hs : s.isBottom = false) (ht : t ∈ ts) (hu : u ∈ ts)
    (hst : s.le t = true) (hsu : s.le u = true) : t = u := by
  refine h.eq_of_not_apart ht hu fun happart => ?_
  have hself : s.key.interval.Apart s.key.interval :=
    happart.mono (le_iff.1 hst).1 (le_iff.1 hsu).1
  exact Interval.not_apart_of_le (Interval.le_refl _) (isBottom_eq_false_iff.1 hs).1 hself

/-- Partitions that lie inside each other have the same segments. -/
theorem Partition.subset_of_within (hss : Partition k ss) (hts : Partition k ts)
    (hst : Within ss ts) (hts' : Within ts ss) : ss ⊆ ts := by
  intro s hs
  obtain ⟨t, ht, hle⟩ := hst s hs
  obtain ⟨s', hs', hle'⟩ := hts' t ht
  have heq : s = s' :=
    hss.tidy.eq_of_le (hss.tidy.proper s hs) hs hs' s.le_refl (Segment.le_trans hle hle')
  have hts : s = t := Segment.le_antisymm (hss.wellFormed s hs).ofKind
    (hts.wellFormed t ht).ofKind hle (heq ▸ hle')
  exact hts ▸ ht

theorem Partition.perm_of_within (hss : Partition k ss) (hts : Partition k ts) (hst : Within ss ts)
    (hts' : Within ts ss) : ss.Perm ts :=
  (List.perm_ext_iff_of_nodup hss.tidy.nodup hts.tidy.nodup).2 fun _ =>
    ⟨fun hs => hss.subset_of_within hts hst hts' hs, fun ht => hts.subset_of_within hss hts' hst ht⟩

/-! ### Merging -/

/-- Merging a segment into others covers them and it. -/
theorem Tidy.within_absorb (h : Tidy known) (hs : s.key.Tight) :
    Within known (Segment.absorb known s) ∧
      (s.isBottom = false → ∃ t ∈ Segment.absorb known s, s.le t = true) := by
  fun_induction Segment.absorb known s with
  | case1 known s hbottom =>
      exact ⟨.refl known, fun hproper => absurd hbottom (Bool.eq_false_iff.1 hproper)⟩
  | case2 known s hbottom hfind =>
      refine ⟨fun u hu => ⟨u, List.mem_append_left _ hu, u.le_refl⟩, fun _ => ⟨s, ?_, s.le_refl⟩⟩
      exact List.mem_append_right _ List.mem_cons_self
  | case3 known s hbottom t hfind ih =>
      have hperm := perm_cons_eraseP hfind
      obtain ⟨ht, -, -, hothers⟩ := tidy_cons.1 (h.perm hperm)
      obtain ⟨hwithin, hjoined⟩ := ih hothers (ht.join hs)
      have hsle := le_join_right ht hs
      obtain ⟨v, hv, hle⟩ := hjoined (isBottom_eq_false_of_le hsle (Bool.eq_false_iff.2 hbottom))
      refine ⟨fun u hu => ?_, fun _ => ⟨v, hv, Segment.le_trans hsle hle⟩⟩
      rcases List.mem_cons.1 (hperm.mem_iff.1 hu) with rfl | hu
      · exact ⟨v, hv, Segment.le_trans (le_join_left ht hs) hle⟩
      · exact hwithin u hu

/-- Nothing smaller covers them: segments that overlap can only lie inside the same one of any others that
share no key. -/
theorem Tidy.absorb_within (hts : Tidy ts) (h : Tidy known) (hs : s.key.Tight)
    (hwithin : Within known ts) (hinside : s.isBottom = false → ∃ t ∈ ts, s.le t = true) :
    Within (Segment.absorb known s) ts := by
  fun_induction Segment.absorb known s with
  | case1 known s hbottom => exact hwithin
  | case2 known s hbottom hfind =>
      intro u hu
      rcases List.mem_append.1 hu with hu | hu
      · exact hwithin u hu
      · obtain rfl := List.mem_singleton.1 hu
        exact hinside (Bool.eq_false_iff.2 hbottom)
  | case3 known s hbottom t hfind ih =>
      have hperm := perm_cons_eraseP hfind
      obtain ⟨ht, -, -, hothers⟩ := tidy_cons.1 (h.perm hperm)
      obtain ⟨⟨d, hd, hle⟩, hrest⟩ :=
        List.forall_mem_cons.1 fun u hu => hwithin u (hperm.mem_iff.2 hu)
      obtain ⟨d', hd', hle'⟩ := hinside (Bool.eq_false_iff.2 hbottom)
      -- What `t` and `s` share lies in both segments that hold them, so these are one.
      have hshared := (touches_iff ht hs).1 (List.find?_some hfind)
      obtain rfl : d = d' := hts.eq_of_not_apart hd hd' fun happart =>
        hshared (happart.mono (le_iff.1 hle).1 (le_iff.1 hle').1)
      exact ih hothers (ht.join hs) hrest fun _ => ⟨d, hd, join_le ht hs hle hle'⟩

theorem Tidy.within_absorbAll (h : Tidy known) (hss : ∀ s ∈ ss, s.key.Tight) :
    Within known (Segment.absorbAll known ss) ∧
      ∀ s ∈ ss, s.isBottom = false → ∃ t ∈ Segment.absorbAll known ss, s.le t = true := by
  rw [Segment.absorbAll]
  induction ss generalizing known with
  | nil => exact ⟨.refl known, List.forall_mem_nil _⟩
  | cons s ss ih =>
      obtain ⟨hs, hss⟩ := List.forall_mem_cons.1 hss
      obtain ⟨hfirst, hinside⟩ := h.within_absorb hs
      obtain ⟨hrest, hall⟩ := ih (h.absorb hs) hss
      refine ⟨hfirst.trans hrest, List.forall_mem_cons.2 ⟨fun hproper => ?_, hall⟩⟩
      obtain ⟨t, ht, hle⟩ := hinside hproper
      obtain ⟨v, hv, hle'⟩ := hrest t ht
      exact ⟨v, hv, Segment.le_trans hle hle'⟩

theorem Tidy.absorbAll_within (hts : Tidy ts) (h : Tidy known) (hss : ∀ s ∈ ss, s.key.Tight)
    (hwithin : Within known ts) (hinside : ∀ s ∈ ss, s.isBottom = false → ∃ t ∈ ts, s.le t = true) :
    Within (Segment.absorbAll known ss) ts := by
  rw [Segment.absorbAll]
  induction ss generalizing known with
  | nil => exact hwithin
  | cons s ss ih =>
      obtain ⟨hs, hss⟩ := List.forall_mem_cons.1 hss
      obtain ⟨hsinside, hinside⟩ := List.forall_mem_cons.1 hinside
      exact ih (h.absorb hs) hss (hts.absorb_within h hs hwithin hsinside) hinside

/-! ### Common segments -/

theorem Tidy.shared_within (hss : Tidy ss) (hts : Tidy ts) :
    Within (SegmentMap.shared ss ts) ss ∧ Within (SegmentMap.shared ss ts) ts := by
  constructor
  · intro u hu
    obtain ⟨s, hs, t, ht, -, rfl⟩ := mem_shared.1 hu
    refine ⟨s, hs, ?_⟩
    rw [le_iff, (hss.tight s hs).meet_interval (hts.tight t ht)]
    exact ⟨Interval.meet_le_left _ _, Interval.meet_le_left _ _⟩
  · intro u hu
    obtain ⟨s, hs, t, ht, -, rfl⟩ := mem_shared.1 hu
    refine ⟨t, ht, ?_⟩
    rw [le_iff, (hss.tight s hs).meet_interval (hts.tight t ht)]
    exact ⟨Interval.meet_le_right _ _, Interval.meet_le_right _ _⟩

/-- What lies inside both of two segments lies inside what they share. -/
theorem Tidy.within_shared (hss : Tidy ss) (hts : Tidy ts) (hus : ∀ u ∈ us, u.isBottom = false)
    (hleft : Within us ss) (hright : Within us ts) : Within us (SegmentMap.shared ss ts) := by
  intro u hu
  obtain ⟨s, hs, hus'⟩ := hleft u hu
  obtain ⟨t, ht, hut⟩ := hright u hu
  have hle : u.le ⟨s.key.meet t.key, s.value.meet t.value⟩ = true := by
    rw [le_iff] at hus' hut
    rw [le_iff, (hss.tight s hs).meet_interval (hts.tight t ht)]
    exact ⟨Interval.le_meet hus'.1 hut.1, Interval.le_meet hus'.2 hut.2⟩
  exact ⟨_, mem_shared.2 ⟨s, hs, t, ht, isBottom_eq_false_of_le hle (hus u hu), rfl⟩, hle⟩

end Segment

namespace SegmentMap

open Segment (Within)

variable {k : Bool} {m n : SegmentMap} {ss : List Segment}

/-! ### Order of maps -/

theorem isTop_iff : Extremal.isTop m = true ↔
    ∃ s, m.segments = some [s] ∧ s.key.interval.isTop = true ∧ s.value.isTop = true := by
  obtain ⟨k, segments⟩ := m
  rcases segments with - | - | ⟨s, - | ⟨t, ss⟩⟩
  · exact iff_of_false Bool.false_ne_true (by simp)
  · exact iff_of_false Bool.false_ne_true (by simp)
  · change (s.key.interval.isTop && s.value.isTop) = true ↔ _
    simp
  · exact iff_of_false Bool.false_ne_true (by simp)

theorem toList_of_segments (h : m.segments = some ss) : m.toList = ss := by
  rw [toList, h, Option.getD_some]

theorem isBottom_eq_false_iff : Extremal.isBottom m = false ↔ m.segments = some m.toList := by
  change m.segments.isNone = false ↔ _
  cases h : m.segments with
  | none => simp
  | some ss => simp [toList_of_segments h]

theorem segmentsLe_iff : m.segmentsLe n = true ↔ Within m.toList n.toList := by
  simp only [segmentsLe, Within, List.all_eq_true, List.any_eq_true]

/-- Inside a map there is room for a segment of all keys and all values only if the map is top. -/
theorem WellFormed.isTop_of_within (hn : n.WellFormed k) (hbottom : Extremal.isBottom n = false)
    (hwithin : Within m.toList n.toList) (h : Extremal.isTop m = true) :
    Extremal.isTop n = true := by
  obtain ⟨s, hsegments, hkey, hvalue⟩ := isTop_iff.1 h
  obtain ⟨t, ht, hle⟩ := hwithin s (by rw [toList_of_segments hsegments]; exact List.mem_cons_self)
  rw [Segment.le_iff] at hle
  have hkey := Interval.isTop_of_le hle.1 hkey
  have hall : ∀ u, u ∈ n.toList ↔ u ∈ [t] := by
    intro u
    rw [List.mem_singleton]
    refine ⟨fun hu => hn.toList.tidy.eq_of_not_apart hu ht ?_, fun hu => hu ▸ ht⟩
    exact Interval.not_apart_of_le (Interval.le_of_isTop hkey) (hn.toList.wellFormed u hu).key_proper
  have hperm := (List.perm_ext_iff_of_nodup hn.toList.tidy.nodup (List.nodup_singleton t)).2 hall
  refine isTop_iff.2 ⟨t, ?_, hkey, Interval.isTop_of_le hle.2 hvalue⟩
  rw [isBottom_eq_false_iff.1 hbottom, List.perm_singleton.1 hperm]

theorem WellFormed.le_iff (hn : n.WellFormed k) :
    Domain.le m n = true ↔ Extremal.isBottom m = true ∨
      Extremal.isBottom n = false ∧ Within m.toList n.toList := by
  change (Extremal.settledLe m n).getD (segmentsLe m n) = true ↔ _
  rw [Extremal.settledLe_getD_iff, segmentsLe_iff]
  constructor
  · rintro (hbottom | htop | ⟨hbottom, -, hwithin⟩)
    · exact Or.inl hbottom
    · obtain ⟨t, hsegments, hkey, hvalue⟩ := isTop_iff.1 htop
      have hlist := toList_of_segments hsegments
      refine Or.inr ⟨by rw [isBottom_eq_false_iff, hsegments, hlist], fun s _ => ⟨t, ?_, ?_⟩⟩
      · rw [hlist]
        exact List.mem_cons_self
      · exact Segment.le_iff.2 ⟨Interval.le_of_isTop hkey, Interval.le_of_isTop hvalue⟩
    · exact Or.inr ⟨hbottom, hwithin⟩
  · rintro (hbottom | ⟨hbottom, hwithin⟩)
    · exact Or.inl hbottom
    · cases htop : Extremal.isTop n with
      | true => exact Or.inr (Or.inl rfl)
      | false =>
          refine Or.inr (Or.inr ⟨hbottom, ?_, hwithin⟩)
          rw [← Bool.not_eq_true] at htop ⊢
          exact fun h => htop (hn.isTop_of_within hbottom hwithin h)

/-- Maps are the same if both are bottom or both have the same segments. -/
theorem WellFormed.same_iff (hm : m.WellFormed k) :
    m.same n = true ↔ Extremal.isBottom m = Extremal.isBottom n ∧ m.toList.Perm n.toList := by
  have hnodup := hm.toList.tidy.nodup
  change _ ↔ m.segments.isNone = n.segments.isNone ∧ _
  rw [same, SegmentMap.toList, SegmentMap.toList]
  rw [SegmentMap.toList] at hnodup
  cases hms : m.segments with
  | none => cases hns : n.segments <;> simp
  | some ss =>
      cases hns : n.segments with
      | none => simp
      | some ts =>
          rw [hms] at hnodup
          simp only [Bool.and_eq_true, beq_iff_eq, List.all_eq_true, decide_eq_true_iff,
            Option.isNone_some, Option.getD_some, true_and]
          constructor
          · rintro ⟨hlength, hmem⟩
            exact (List.Nodup.subperm hnodup hmem).perm_of_length_le hlength.ge
          · intro hperm
            exact ⟨hperm.length_eq, fun s hs => hperm.mem_iff.1 hs⟩

theorem toList_of_isBottom (h : Extremal.isBottom m = true) : m.toList = [] := by
  have hsegments : m.segments = none := Option.isNone_iff_eq_none.1 h
  rw [SegmentMap.toList, hsegments, Option.getD_none]

theorem WellFormed.same_of_le (hm : m.WellFormed k) (hn : n.WellFormed k)
    (hmn : Domain.le m n = true) (hnm : Domain.le n m = true) : m.same n = true := by
  rw [hm.same_iff]
  rcases hn.le_iff.1 hmn with hbottom | ⟨hbottom, hwithin⟩
  · rcases hm.le_iff.1 hnm with hbottom' | ⟨hproper, -⟩
    · rw [toList_of_isBottom hbottom, toList_of_isBottom hbottom', hbottom, hbottom']
      exact ⟨rfl, .nil⟩
    · rw [hbottom] at hproper
      cases hproper
  · rcases hm.le_iff.1 hnm with hbottom' | ⟨hproper, hwithin'⟩
    · rw [hbottom] at hbottom'
      cases hbottom'
    · exact ⟨hproper.trans hbottom.symm, hm.toList.perm_of_within hn.toList hwithin hwithin'⟩

/-- The maps whose segments are a partition over keys of a kind. -/
def Partitioned (k : Bool) : Type := { m : SegmentMap // m.WellFormed k }

instance : Preorder (Partitioned k) where
  le x y := Domain.le x.1 y.1 = true
  le_refl x := by
    rw [x.2.le_iff]
    cases h : Extremal.isBottom x.1 with
    | true => exact Or.inl rfl
    | false => exact Or.inr ⟨rfl, .refl _⟩
  le_trans x y z hxy hyz := by
    rw [y.2.le_iff] at hxy
    rw [z.2.le_iff] at hyz ⊢
    rcases hxy with hbottom | ⟨hbottom, hxy⟩
    · exact Or.inl hbottom
    · rcases hyz with hbottom' | ⟨hbottom', hyz⟩
      · rw [hbottom] at hbottom'
        cases hbottom'
      · exact Or.inr ⟨hbottom', hxy.trans hyz⟩

namespace Partitioned

variable {x y z : Partitioned k}

theorem le_iff : x ≤ y ↔ Extremal.isBottom x.1 = true ∨
    Extremal.isBottom y.1 = false ∧ Within x.1.toList y.1.toList :=
  y.2.le_iff

theorem le_of_isBottom (h : Extremal.isBottom x.1 = true) : x ≤ y := le_iff.2 (Or.inl h)

theorem le_of_isTop (h : Extremal.isTop y.1 = true) : x ≤ y := by
  change (Extremal.settledLe x.1 y.1).getD (segmentsLe x.1 y.1) = true
  exact Extremal.settledLe_getD_iff.2 (Or.inr (Or.inl h))

theorem same_of_le (hxy : x ≤ y) (hyx : y ≤ x) : x.1.same y.1 = true := x.2.same_of_le y.2 hxy hyx

/-! ### Joins and meets -/

theorem segments_of_withSegments (h : m.withSegments ss = .ok n) : n.segments = some ss := by
  unfold withSegments at h
  split at h
  · obtain rfl := pure_eq_ok.1 h
    rfl
  · exact absurd h throw_ne_ok

/-- Joining answers with the least map above both. -/
theorem exists_join (x y : Partitioned k) :
    ∃ j : Partitioned k, Domain.join x.1 y.1 = .ok j.1 ∧ IsLUB {x, y} j := by
  obtain ⟨j, hjoin, hj⟩ := x.2.join y.2
  refine ⟨⟨j, hj⟩, hjoin, ?_⟩
  rcases Extremal.settledJoin_cases hjoin with ⟨rfl, hset⟩ | ⟨rfl, hset⟩ | ⟨⟨hx, -⟩, ⟨hy, -⟩, hproper⟩
  · exact (isLUB_of_le (hset.elim le_of_isBottom le_of_isTop)).1
  · exact (isLUB_of_le (hset.elim le_of_isBottom le_of_isTop)).2
  · have hsegments := segments_of_withSegments hproper
    have hlist := toList_of_segments hsegments
    have hbottom : Extremal.isBottom j = false := by rw [isBottom_eq_false_iff, hsegments, hlist]
    have htx := x.2.toList.tidy
    have hty := y.2.toList.tidy
    obtain ⟨hmine, htheirs⟩ := htx.within_absorbAll hty.tight
    rw [← hlist] at hmine htheirs
    refine isLUB_pair_iff.2 ⟨⟨?_, ?_⟩, fun z hxz hyz => ?_⟩
    · exact le_iff.2 (Or.inr ⟨hbottom, hmine⟩)
    · exact le_iff.2 (Or.inr ⟨hbottom, fun t ht => htheirs t ht (hty.proper t ht)⟩)
    · obtain ⟨hz, hxz⟩ := (le_iff.1 hxz).resolve_left (Bool.eq_false_iff.1 hx)
      obtain ⟨-, hyz⟩ := (le_iff.1 hyz).resolve_left (Bool.eq_false_iff.1 hy)
      refine le_iff.2 (Or.inr ⟨hz, ?_⟩)
      rw [hlist]
      exact z.2.toList.tidy.absorbAll_within htx hty.tight hxz fun t ht _ => hyz t ht

/-- Meeting answers with the greatest map below both. -/
theorem exists_meet (x y : Partitioned k) :
    ∃ m : Partitioned k, Domain.meet x.1 y.1 = .ok m.1 ∧ IsGLB {x, y} m := by
  obtain ⟨m, hmeet, hm⟩ := x.2.meet y.2
  refine ⟨⟨m, hm⟩, hmeet, ?_⟩
  rcases Extremal.settledMeet_cases hmeet with ⟨rfl, hset⟩ | ⟨rfl, hset⟩ | ⟨hx, hy, hproper⟩
  · exact (isLUB_of_le (α := (Partitioned k)ᵒᵈ) (hset.elim le_of_isTop le_of_isBottom)).1
  · exact (isLUB_of_le (α := (Partitioned k)ᵒᵈ) (hset.elim le_of_isTop le_of_isBottom)).2
  · have hsegments := segments_of_withSegments hproper
    have hlist := toList_of_segments hsegments
    have hbottom : Extremal.isBottom m = false := by rw [isBottom_eq_false_iff, hsegments, hlist]
    have htx := x.2.toList.tidy
    have hty := y.2.toList.tidy
    obtain ⟨hmine, htheirs⟩ := htx.shared_within hty
    rw [← hlist] at hmine htheirs
    refine (isLUB_pair_iff (α := (Partitioned k)ᵒᵈ)).2 ⟨⟨?_, ?_⟩, fun z hzx hzy => ?_⟩
    · exact le_iff.2 (Or.inr ⟨hx, hmine⟩)
    · exact le_iff.2 (Or.inr ⟨hy, htheirs⟩)
    · cases hz : Extremal.isBottom z.1 with
      | true => exact le_of_isBottom hz
      | false =>
          obtain ⟨-, hzx⟩ := (le_iff.1 hzx).resolve_left (Bool.eq_false_iff.1 hz)
          obtain ⟨-, hzy⟩ := (le_iff.1 hzy).resolve_left (Bool.eq_false_iff.1 hz)
          refine le_iff.2 (Or.inr ⟨hbottom, ?_⟩)
          rw [hlist]
          exact htx.within_shared hty z.2.toList.tidy.proper hzx hzy

end Partitioned

/-! ### Laws -/

/-- Both operations answer, with the same segments. -/
def Agree (a b : Outcome SegmentMap) : Prop :=
  ∃ m n, a = .ok m ∧ b = .ok n ∧ m.same n = true

/-- An operation that answers with least upper bounds depends neither on order nor on grouping, and the greater
of two maps absorbs the other. The elements of `α` stand for maps, in their order or in its dual. -/
theorem agree_of_isLUB {α : Type} [Preorder α] {f : α → SegmentMap}
    {op : SegmentMap → SegmentMap → Outcome SegmentMap}
    (hsame : ∀ {x y : α}, x ≤ y → y ≤ x → (f x).same (f y) = true)
    (hop : ∀ x y : α, ∃ j, op (f x) (f y) = .ok (f j) ∧ IsLUB {x, y} j) (x y z : α) :
    Agree (op (f x) (f y)) (op (f y) (f x)) ∧
    Agree (do op (← op (f x) (f y)) (f z)) (do op (f x) (← op (f y) (f z))) ∧
    (x ≤ y → Agree (op (f x) (f y)) (pure (f y))) ∧
    (y ≤ x → Agree (op (f x) (f y)) (pure (f x))) := by
  obtain ⟨xy, hxy, hlub⟩ := hop x y
  have hunique : ∀ {j}, IsLUB {x, y} j → (f xy).same (f j) = true := fun hj =>
    hsame (hlub.2 hj.1) (hj.2 hlub.1)
  refine ⟨?_, ?_, fun hle => ⟨_, _, hxy, rfl, hunique (isLUB_of_le hle).2⟩,
    fun hle => ⟨_, _, hxy, rfl, hunique (isLUB_of_le hle).1⟩⟩
  · obtain ⟨yx, hyx, hlub'⟩ := hop y x
    rw [Set.pair_comm] at hlub'
    exact ⟨_, _, hxy, hyx, hunique hlub'⟩
  · obtain ⟨yz, hyz, hlubyz⟩ := hop y z
    obtain ⟨left, hleft, hlubleft⟩ := hop xy z
    obtain ⟨right, hright, hlubright⟩ := hop x yz
    obtain ⟨hle, hge⟩ := isLUB_assoc hlub hlubleft hlubyz hlubright
    rw [hxy, hyz]
    exact ⟨_, _, hleft, hright, hsame hle hge⟩

/-- Partitioned maps are a lattice. Their order is reflexive, transitive and antisymmetric up to the order of
segments, joins are least upper and meets greatest lower bounds, and so both are commutative, associative and
idempotent, and of two maps that are ordered the join is the greater and the meet the smaller. -/
theorem partitioned_lattice (x y z : Partitioned k) :
    (x ≤ x ∧ (x ≤ y → y ≤ z → x ≤ z) ∧ (x ≤ y → y ≤ x → x.1.same y.1 = true)) ∧
    (∃ j : Partitioned k, Domain.join x.1 y.1 = .ok j.1 ∧ IsLUB {x, y} j) ∧
    (∃ m : Partitioned k, Domain.meet x.1 y.1 = .ok m.1 ∧ IsGLB {x, y} m) ∧
    (Agree (Domain.join x.1 y.1) (Domain.join y.1 x.1) ∧
      Agree (Domain.meet x.1 y.1) (Domain.meet y.1 x.1)) ∧
    (Agree (do Domain.join (← Domain.join x.1 y.1) z.1) (do Domain.join x.1 (← Domain.join y.1 z.1)) ∧
      Agree (do Domain.meet (← Domain.meet x.1 y.1) z.1)
        (do Domain.meet x.1 (← Domain.meet y.1 z.1))) ∧
    (Agree (Domain.join x.1 x.1) (pure x.1) ∧ Agree (Domain.meet x.1 x.1) (pure x.1)) ∧
    (x ≤ y → Agree (Domain.join x.1 y.1) (pure y.1) ∧ Agree (Domain.meet x.1 y.1) (pure x.1)) := by
  have hjoin := agree_of_isLUB (f := fun x : Partitioned k => x.1) Partitioned.same_of_le
    Partitioned.exists_join
  have hmeet := agree_of_isLUB (α := (Partitioned k)ᵒᵈ) (f := fun x => Subtype.val x)
    (fun hyx hxy => Partitioned.same_of_le hxy hyx) Partitioned.exists_meet
  obtain ⟨hcomm, hassoc, hle, -⟩ := hjoin x y z
  obtain ⟨hcomm', hassoc', -, hle'⟩ := hmeet x y z
  refine ⟨⟨le_rfl, le_trans, Partitioned.same_of_le⟩, Partitioned.exists_join x y,
    Partitioned.exists_meet x y, ⟨hcomm, hcomm'⟩, ⟨hassoc, hassoc'⟩, ⟨?_, ?_⟩,
    fun hxy => ⟨hle hxy, hle' hxy⟩⟩
  · exact (hjoin x x z).2.2.1 le_rfl
  · exact (hmeet x x z).2.2.1 le_rfl

/-- A segment that overlaps two others makes one of all three. -/
theorem partitioned_lattice_chain :
    ∃ x y j : Partitioned true,
      x.1 = ofSegments true [⟨⟨.of 0 2, true⟩, .point 1⟩, ⟨⟨.of 5 6, true⟩, .point 2⟩] ∧
      y.1 = ofSegments true [⟨⟨.of 2 5, true⟩, .point 3⟩] ∧
      Domain.join x.1 y.1 = .ok j.1 ∧ j.1.segments = some [⟨⟨.of 0 6, true⟩, .of 1 3⟩] ∧
      IsLUB {x, y} j ∧ x ≤ j ∧ Agree (Domain.join x.1 j.1) (pure j.1) := by
  have hx : Obtained true (ofSegments true
      [⟨⟨.of 0 2, true⟩, .point 1⟩, ⟨⟨.of 5 6, true⟩, .point 2⟩]) :=
    .ofSegments (List.forall_mem_cons.2
      ⟨Region.of_ofKind 0 2, List.forall_mem_singleton.2 (Region.of_ofKind 5 6)⟩)
  have hy : Obtained true (ofSegments true [⟨⟨.of 2 5, true⟩, .point 3⟩]) :=
    .ofSegments (List.forall_mem_singleton.2 (Region.of_ofKind 2 5))
  obtain ⟨-, ⟨j, hjoin, hlub⟩, -⟩ :=
    partitioned_lattice (⟨_, hx.wellFormed⟩ : Partitioned true) ⟨_, hy.wellFormed⟩ ⟨_, hx.wellFormed⟩
  have hsegments : (Domain.join
      (ofSegments true [⟨⟨.of 0 2, true⟩, .point 1⟩, ⟨⟨.of 5 6, true⟩, .point 2⟩])
      (ofSegments true [⟨⟨.of 2 5, true⟩, .point 3⟩])).toOption.map segments =
        some (some [⟨⟨.of 0 6, true⟩, .of 1 3⟩]) := by
    decide +kernel
  rw [hjoin] at hsegments
  have hle := (isLUB_pair_iff.1 hlub).1.1
  obtain ⟨-, -, -, -, -, -, habsorbed⟩ := partitioned_lattice ⟨_, hx.wellFormed⟩ j j
  exact ⟨⟨_, hx.wellFormed⟩, ⟨_, hy.wellFormed⟩, j, rfl, rfl, hjoin, Option.some.inj hsegments, hlub,
    hle, (habsorbed hle).1⟩

end SegmentMap

end FlowAnalysis
