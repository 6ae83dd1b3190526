import FlowAnalysis.Proofs.Segment.Mixed

/-!
Reading single keys. Under a whole number a map holds the join of what its segments hold there, of which at most
one has it among its keys. A strong update reads like a write to an array: under the keys of its region the new
value, under all other keys what was held before. Where a region cannot be cut because its ends are too large to
be moved by one, segments are merged, and then as much or more is read. Either way the keys of the map grow by
those of the region and by no others.
-/

namespace FlowAnalysis

namespace Bound

variable {b c : Bound}

theorem IsWhole.neg (hb : b.IsWhole) : b.neg.IsWhole := by
  cases b with
  | fin q =>
      obtain ⟨m, rfl⟩ := hb
      exact ⟨-m, (Int.cast_neg m).symm⟩
  | _ => trivial

/-- What is not above any of the whole numbers from `b` up to a given one is not above `b`. -/
theorem IsWhole.ge_of_forall (hb : b.IsWhole) {n : Int} (hn : b ≤ fin n)
    (h : ∀ m : Int, b ≤ fin m → m ≤ n → c ≤ fin m) : c ≤ b := by
  cases b with
  | posInf => exact le_posInf c
  | fin q =>
      obtain ⟨m, rfl⟩ := hb
      rw [fin_le_fin] at hn
      exact h m le_rfl (by exact_mod_cast hn)
  | negInf =>
      cases c with
      | negInf => exact le_rfl
      | posInf => exact absurd rfl (ne_posInf_of_le_fin (h n hn le_rfl))
      | fin q =>
          have hle : q ≤ (n ⊓ (⌊q⌋ - 1) : Int) := fin_le_fin.1 (h _ (negInf_le _) inf_le_left)
          have hfloor : ⌊q⌋ ≤ n ⊓ (⌊q⌋ - 1) := Int.cast_le.1 ((Int.floor_le q).trans hle)
          have hlt : n ⊓ (⌊q⌋ - 1) < ⌊q⌋ := inf_le_right.trans_lt (sub_one_lt _)
          exact absurd hfloor (not_le.2 hlt)

theorem IsWhole.le_of_forall (hb : b.IsWhole) {n : Int} (hn : fin n ≤ b)
    (h : ∀ m : Int, fin m ≤ b → n ≤ m → fin m ≤ c) : b ≤ c := by
  have hneg : ∀ m : Int, (fin (m : Rat)).neg = fin ((-m : Int) : Rat) := fun m => by
    rw [Bound.neg, Int.cast_neg]
  have hge : c.neg ≤ b.neg := by
    apply hb.neg.ge_of_forall (n := -n)
    · rw [← hneg]
      exact Bound.neg_le_neg hn
    · intro m hm hmn
      have hle : fin ((-m : Int) : Rat) ≤ b := by
        rw [← hneg, ← Bound.neg_neg b]
        exact Bound.neg_le_neg hm
      have hc := Bound.neg_le_neg (h (-m) hle (by omega))
      rwa [hneg, neg_neg] at hc
  rw [← Bound.neg_neg b, ← Bound.neg_neg c]
  exact Bound.neg_le_neg hge

end Bound

namespace Interval

variable {a b : Interval}

theorem IsWhole.exists_mem (ha : a.IsWhole) (hproper : a.isBottom = false) : ∃ n : Int, (n : Rat) ∈ a := by
  obtain ⟨hle, hlower, hupper⟩ := isBottom_eq_false_iff.1 hproper
  obtain ⟨hwhole, hwhole'⟩ := ha
  cases hl : a.lower with
  | posInf => exact absurd hl hlower
  | fin q =>
      obtain ⟨m, rfl⟩ : (Bound.fin q).IsWhole := hl ▸ hwhole
      exact ⟨m, mem_iff.2 ⟨hl.le, hl ▸ hle⟩⟩
  | negInf =>
      cases hu : a.upper with
      | negInf => exact absurd hu hupper
      | posInf => exact ⟨0, mem_iff.2 ⟨hl ▸ Bound.negInf_le _, hu ▸ Bound.le_posInf _⟩⟩
      | fin q =>
          obtain ⟨m, rfl⟩ : (Bound.fin q).IsWhole := hu ▸ hwhole'
          exact ⟨m, mem_iff.2 ⟨hl ▸ Bound.negInf_le _, hu.ge⟩⟩

/-- An interval that ends at whole numbers is known from the whole numbers in it. -/
theorem IsWhole.le_of_mem (ha : a.IsWhole) (h : ∀ n : Int, (n : Rat) ∈ a → (n : Rat) ∈ b) :
    a.le b = true := by
  cases hproper : a.isBottom with
  | true => exact le_of_isBottom hproper
  | false =>
      obtain ⟨n, hn⟩ := ha.exists_mem hproper
      obtain ⟨hlower, hupper⟩ := mem_iff.1 hn
      have hfin : ∀ {m m' : Int}, m ≤ m' → Bound.fin (m : Rat) ≤ .fin (m' : Rat) := fun hle =>
        Bound.fin_le_fin.2 (Int.cast_le.2 hle)
      rw [le_iff]
      constructor
      · apply ha.1.ge_of_forall hlower
        intro m hm hmn
        exact (mem_iff.1 (h m (mem_iff.2 ⟨hm, (hfin hmn).trans hupper⟩))).1
      · apply ha.2.le_of_forall hupper
        intro m hm hnm
        exact (mem_iff.1 (h m (mem_iff.2 ⟨hlower.trans (hfin hnm), hm⟩))).2

end Interval

namespace Region

variable {k : Bool} {r s : Region}

theorem ofKind_iff : r.OfKind k ↔ r.integral = k ∧ (k = true → r.interval.integral = r.interval) := by
  constructor
  · intro h
    exact ⟨h.integral_eq, fun hk => (h.whole hk).integral_eq⟩
  · rintro ⟨hkind, hwhole⟩
    exact ⟨hkind, fun hk => hwhole hk ▸ Interval.isWhole_integral _⟩

instance : Decidable (r.OfKind k) := decidable_of_iff' _ ofKind_iff

/-- The finite ends of a region are smaller than `2 ^ 53` in magnitude, so that they can be moved by one. -/
def Exact (r : Region) : Prop :=
  ∀ q : Rat, r.interval.lower = .fin q ∨ r.interval.upper = .fin q → |q| < 2 ^ 53

theorem isInexact_eq_false_iff {b : Bound} : isInexact b = false ↔ ∀ q : Rat, b = .fin q → |q| < 2 ^ 53 := by
  cases b with
  | fin q =>
      rw [isInexact, decide_eq_false_iff_not, not_le, Bound.abs_eq, exactIntegers]
      constructor
      · rintro h p hp
        obtain rfl := Bound.fin.inj hp
        exact_mod_cast h
      · intro h
        exact_mod_cast h q rfl
  | negInf => simp [isInexact]
  | posInf => simp [isInexact]

theorem exact_iff :
    r.Exact ↔ isInexact r.interval.lower = false ∧ isInexact r.interval.upper = false := by
  simp only [Exact, isInexact_eq_false_iff, or_imp, forall_and]

instance : Decidable r.Exact := decidable_of_iff' _ exact_iff

/-- The ends of what two regions share are ends of theirs. -/
theorem Exact.meet (hr : r.Exact) (hs : s.Exact) :
    isInexact (r.interval.meet s.interval).lower = false ∧
      isInexact (r.interval.meet s.interval).upper = false := by
  rw [exact_iff] at hr hs
  cases hproper : (r.interval.meet s.interval).isBottom with
  | true =>
      rw [Interval.isBottom_iff.1 hproper]
      exact ⟨rfl, rfl⟩
  | false =>
      obtain ⟨hlower, hupper⟩ := Interval.meet_bounds hproper
      rw [hlower, hupper]
      constructor
      · rcases max_choice r.interval.lower s.interval.lower with h | h
        · rw [h]
          exact hr.1
        · rw [h]
          exact hs.1
      · rcases min_choice r.interval.upper s.interval.upper with h | h
        · rw [h]
          exact hr.2
        · rw [h]
          exact hs.2

/-- A region of whole numbers cannot be cut out of another one exactly where an end of what they share cannot be moved
by one. -/
theorem without?_eq_none_iff (hr : r.OfKind true) (hs : s.OfKind true) :
    r.without? s = none ↔ isInexact (r.interval.meet s.interval).lower = true ∨
      isInexact (r.interval.meet s.interval).upper = true := by
  rw [without?, if_pos hr.integral_eq, ((hr.whole rfl).meet (hs.whole rfl)).integral_eq]
  dsimp only
  split
  · rename_i hbottom
    rw [Interval.isBottom_iff.1 hbottom]
    exact iff_of_false (Option.some_ne_none _) (by decide)
  · rw [← Bool.or_eq_true]
    split
    · rename_i hinexact
      exact iff_of_true rfl hinexact
    · rename_i hexact
      exact iff_of_false (Option.some_ne_none _) hexact

theorem exists_without? (hr : r.OfKind true) (hs : s.OfKind true)
    (hexact : isInexact (r.interval.meet s.interval).lower = false ∧
      isInexact (r.interval.meet s.interval).upper = false) : ∃ pieces, r.without? s = some pieces := by
  rw [← Option.ne_none_iff_exists', Ne, without?_eq_none_iff hr hs, hexact.1, hexact.2]
  decide

end Region

namespace Segment

open Region (OfKind Exact)

variable {key : Region} {value a b : Interval} {s : Segment} {ss ts kept : List Segment} {n : Int}

/-! ### What is held under a key -/

/-- The join of what some segments hold under the key `n`. -/
def heldAt (ss : List Segment) (n : Int) : Interval :=
  .joinAll ((ss.filter fun s => decide ((n : Rat) ∈ s.key.interval)).map Segment.value)

theorem heldAt_le_iff : (heldAt ss n).le a = true ↔
    ∀ s ∈ ss, (n : Rat) ∈ s.key.interval → s.value.le a = true := by
  constructor
  · intro h s hs hn
    have hmem : s ∈ ss.filter fun s => decide ((n : Rat) ∈ s.key.interval) :=
      List.mem_filter.2 ⟨hs, decide_eq_true hn⟩
    exact Interval.le_trans (Interval.le_joinAll (List.mem_map_of_mem hmem)) h
  · intro h
    apply Interval.joinAll_le
    simp only [List.mem_map, List.mem_filter, decide_eq_true_iff]
    rintro _ ⟨s, ⟨hs, hn⟩, rfl⟩
    exact h s hs hn

theorem le_heldAt (hs : s ∈ ss) (hn : (n : Rat) ∈ s.key.interval) : s.value.le (heldAt ss n) = true :=
  heldAt_le_iff.1 (Interval.le_refl _) s hs hn

theorem heldAt_append (ss ts : List Segment) (n : Int) :
    heldAt (ss ++ ts) n = (heldAt ss n).join (heldAt ts n) := by
  apply Interval.le_antisymm
  · rw [heldAt_le_iff, List.forall_mem_append]
    exact ⟨fun s hs hn => Interval.le_trans (le_heldAt hs hn) (Interval.le_join_left _ _),
      fun s hs hn => Interval.le_trans (le_heldAt hs hn) (Interval.le_join_right _ _)⟩
  · apply Interval.join_le
    · exact heldAt_le_iff.2 fun s hs hn => le_heldAt (List.mem_append_left ts hs) hn
    · exact heldAt_le_iff.2 fun s hs hn => le_heldAt (List.mem_append_right ss hs) hn

theorem heldAt_eq_bottom (h : ∀ s ∈ ss, ¬ (n : Rat) ∈ s.key.interval) : heldAt ss n = .bottom := by
  apply Interval.le_antisymm
  · exact heldAt_le_iff.2 fun s hs hn => absurd hn (h s hs)
  · exact Interval.bottom_le _

/-- Segments that cover all that others cover under a key hold no less there. -/
theorem heldAt_le_of_covers (h : ∀ a : Interval, a.isBottom = false → Covers ss n a → Covers ts n a) :
    (heldAt ss n).le (heldAt ts n) = true := by
  rw [heldAt_le_iff]
  intro s hs hn
  cases hvalue : s.value.isBottom with
  | true => exact Interval.le_of_isBottom hvalue
  | false =>
      obtain ⟨t, ht, hnt, hle⟩ := h s.value hvalue ⟨s, hs, hn, Interval.le_refl _⟩
      exact Interval.le_trans hle (le_heldAt ht hnt)

/-! ### Cutting out a region -/

theorem exists_outside? (hss : ∀ s ∈ ss, s.key.OfKind true ∧ s.key.Exact) (hkey : key.OfKind true)
    (hexact : key.Exact) : ∃ kept, outside? key ss = some kept := by
  induction ss with
  | nil => exact ⟨[], rfl⟩
  | cons s ss ih =>
      obtain ⟨⟨hs, hsexact⟩, hss⟩ := List.forall_mem_cons.1 hss
      obtain ⟨kept, hkept⟩ := ih hss
      obtain ⟨pieces, hpieces⟩ := Region.exists_without? hs hkey (hsexact.meet hexact)
      rw [outside?, hkept, hpieces]
      split
      · exact ⟨_, rfl⟩
      · exact ⟨_, rfl⟩

theorem heldAt_singleton : heldAt [s] n = if (n : Rat) ∈ s.key.interval then s.value else .bottom := by
  split
  · rename_i hn
    apply Interval.le_antisymm
    · exact heldAt_le_iff.2 (List.forall_mem_singleton.2 fun _ => Interval.le_refl _)
    · exact le_heldAt (List.mem_singleton_self s) hn
  · rename_i hn
    exact heldAt_eq_bottom (List.forall_mem_singleton.2 hn)

/-- Where a region is cut out of segments and a new one put in its place, its keys hold the new value and all
others what they held. -/
theorem Tidy.heldAt_replaced (h : Tidy ss) (hkey : key.OfKind true)
    (hkept : Segment.outside? key ss = some kept) (n : Int) :
    heldAt (kept ++ [⟨key, value⟩]) n = if (n : Rat) ∈ key.interval then value else heldAt ss n := by
  obtain ⟨hleft, hsource⟩ := h.outside?_spec hkey.tight (fun _ _ _ => hkey.integral_eq) hkept
  rw [heldAt_append, heldAt_singleton]
  split
  · rename_i hn
    have hkept : heldAt kept n = .bottom := by
      apply heldAt_eq_bottom
      intro u hu hnu
      obtain ⟨s, -, rest, hu, hrest⟩ := hsource u hu
      exact Interval.not_apart_iff.2 ⟨n, hnu, hn⟩ (hrest.apart u hu)
    rw [hkept]
    exact Interval.join_eq_right (Interval.bottom_le _)
  · rename_i hn
    rw [Interval.join_comm, Interval.join_eq_right (Interval.bottom_le _)]
    apply Interval.le_antisymm
    · rw [heldAt_le_iff]
      intro u hu hnu
      obtain ⟨s, hs, rest, hu, hrest⟩ := hsource u hu
      have hns : (n : Rat) ∈ s.key.interval := Interval.mem_of_le (hrest.inside u hu) hnu
      -- Of the pieces of `s` the one with `n` is `u`.
      obtain ⟨v, hv, hnv, hvalue⟩ := hrest.covers n hns hn
      obtain rfl := hrest.tidy.eq_of_not_apart hv hu (Interval.not_apart_iff.2 ⟨n, hnv, hnu⟩)
      exact hvalue ▸ le_heldAt hs hns
    · rw [heldAt_le_iff]
      intro s hs hns
      obtain ⟨rest, hsubset, hrest⟩ := hleft s hs
      obtain ⟨u, hu, hnu, hvalue⟩ := hrest.covers n hns hn
      exact hvalue ▸ le_heldAt (hsubset hu) hnu

end Segment

namespace SegmentMap

open Region (OfKind Exact)
open Segment (Tidy Partition Covers heldAt)

variable {m m' : SegmentMap} {key : Region} {value : Interval} {ss : List Segment} {n : Int}

theorem valuesAt_single (h : Tidy m.toList) (n : Int) : m.valuesAt (.single n) = heldAt m.toList n := by
  unfold valuesAt heldAt
  congr 2
  apply List.filter_congr
  intro s hs
  rw [Bool.eq_iff_iff, decide_eq_true_iff]
  exact Segment.touches_point (h.tight s hs) (Region.single_ofKind n).tight (Region.single_interval n)

/-! ### Keys -/

theorem WellFormed.keys_ofKind {k : Bool} (hm : m.WellFormed k) : m.keys.OfKind k := by
  have hbottom : OfKind k ⟨.bottom, m.integral⟩ := hm.integral_eq ▸ Region.bottom_ofKind m.integral
  apply hbottom.joinAll
  intro r hr
  obtain ⟨s, hs, rfl⟩ := List.mem_map.1 hr
  exact hm.toList.ofKind s hs

theorem keys_interval (h : Tidy m.toList) :
    m.keys.interval = .joinAll ((m.toList.map Segment.key).map Region.interval) := by
  apply (Region.joinAll_tight ⟨.bottom, m.integral⟩ _).2
  intro r hr
  obtain ⟨s, hs, rfl⟩ := List.mem_map.1 hr
  exact h.tight s hs

/-- Keys between two bounds are those of an interval if all segments lie in it. -/
theorem keys_le_iff {a : Interval} (h : Tidy m.toList) :
    m.keys.interval.le a = true ↔ ∀ s ∈ m.toList, s.key.interval.le a = true := by
  rw [keys_interval h]
  constructor
  · intro hle s hs
    have hmem := List.mem_map_of_mem (f := Region.interval) (List.mem_map_of_mem (f := Segment.key) hs)
    exact Interval.le_trans (Interval.le_joinAll hmem) hle
  · intro hle
    apply Interval.joinAll_le
    simp only [List.map_map, List.mem_map, Function.comp_apply]
    rintro _ ⟨s, hs, rfl⟩
    exact hle s hs

/-- An update that covers its region and what was there, and whose segments lie inside both, has the keys of
both. -/
theorem WellFormed.keys_eq_join (hm : m.WellFormed true) (hm' : m'.WellFormed true) (hkey : key.OfKind true)
    (hcovers : ∀ n : Int, (n : Rat) ∈ key.interval ∨ (∃ s ∈ m.toList, (n : Rat) ∈ s.key.interval) →
      ∃ u ∈ m'.toList, (n : Rat) ∈ u.key.interval)
    (hinside : ∀ u ∈ m'.toList, u.key.interval.le (m.keys.interval.join key.interval) = true) :
    m'.keys = m.keys.join key := by
  have htidy := hm.toList.tidy
  have htidy' := hm'.toList.tidy
  have hread : ∀ n : Int, (∃ u ∈ m'.toList, (n : Rat) ∈ u.key.interval) → (n : Rat) ∈ m'.keys.interval := by
    rintro n ⟨u, hu, hn⟩
    exact Interval.mem_of_le ((keys_le_iff htidy').1 (Interval.le_refl _) u hu) hn
  apply hm'.keys_ofKind.ext (hm.keys_ofKind.join hkey)
  rw [hm.keys_ofKind.tight.join_interval hkey.tight]
  apply Interval.le_antisymm
  · exact (keys_le_iff htidy').2 hinside
  · apply Interval.join_le
    · rw [keys_le_iff htidy]
      intro s hs
      apply ((hm.toList.ofKind s hs).whole rfl).le_of_mem
      exact fun n hn => hread n (hcovers n (Or.inr ⟨s, hs, hn⟩))
    · apply (hkey.whole rfl).le_of_mem
      exact fun n hn => hread n (hcovers n (Or.inl hn))

/-- A strong update either cuts the region out and puts the new segment in its place, or merges it. -/
theorem overwrite_cases (hss : m.segments = some ss) (hproper : Segment.isBottom ⟨key, value⟩ = false)
    (h : m.overwrite key value = .ok m') :
    (∃ kept, Segment.outside? key ss = some kept ∧ m'.segments = some (kept ++ [⟨key, value⟩])) ∨
      Segment.outside? key ss = none ∧ m'.segments = some (Segment.absorb ss ⟨key, value⟩) := by
  have hbottom : ¬ (key.isBottom || value.isBottom) = true := Bool.eq_false_iff.1 hproper
  rw [overwrite, hss] at h
  simp only [if_neg hbottom] at h
  split at h
  · rename_i kept hkept
    exact Or.inl ⟨kept, hkept, Partitioned.segments_of_withSegments h⟩
  · rename_i hkept
    rw [insert, hss] at h
    exact Or.inr ⟨hkept, Partitioned.segments_of_withSegments h⟩

section Overwritten

variable (hm : m.WellFormed true) (hss : m.segments = some ss) (hkey : key.OfKind true)
  (hproper : Segment.isBottom ⟨key, value⟩ = false) (h : m.overwrite key value = .ok m')

include hm hss hkey hproper h

theorem overwrite_inside :
    ∀ u ∈ m'.toList, u.key.interval.le (m.keys.interval.join key.interval) = true := by
  have htidy : Tidy m.toList := hm.toList.tidy
  have hold : ∀ s ∈ ss, s.key.interval.le (m.keys.interval.join key.interval) = true := by
    rw [← toList_of_segments hss, ← keys_le_iff htidy]
    exact Interval.le_join_left _ _
  have hnew : key.interval.le (m.keys.interval.join key.interval) = true := Interval.le_join_right _ _
  rw [toList_of_segments hss] at htidy
  rcases overwrite_cases hss hproper h with ⟨kept, hkept, hsegments⟩ | ⟨-, hsegments⟩
  · have hsource := (htidy.outside?_spec hkey.tight (fun _ _ _ => hkey.integral_eq) hkept).2
    rw [toList_of_segments hsegments, List.forall_mem_append, List.forall_mem_singleton]
    refine ⟨fun u hu => ?_, hnew⟩
    obtain ⟨s, hs, rest, hu, hrest⟩ := hsource u hu
    exact Interval.le_trans (hrest.inside u hu) (hold s hs)
  · -- The keys of both and all values make one segment, and what is merged stays inside it.
    have hjoin := hm.keys_ofKind.tight.join_interval hkey.tight
    have hhull : Tidy [⟨m.keys.join key, .top⟩] := by
      rw [Segment.tidy_cons]
      refine ⟨hm.keys_ofKind.tight.join hkey.tight, ?_, List.forall_mem_nil _, .nil⟩
      rw [Segment.isBottom_eq_false_iff, Region.isBottom, hjoin]
      exact ⟨Interval.isBottom_eq_false_of_le hnew (Segment.isBottom_eq_false_iff.1 hproper).1, rfl⟩
    have hin : ∀ s : Segment, s.key.interval.le (m.keys.interval.join key.interval) = true →
        ∃ t ∈ [(⟨m.keys.join key, .top⟩ : Segment)], s.le t = true := fun s hs =>
      ⟨_, List.mem_singleton_self _, Segment.le_iff.2 ⟨hjoin ▸ hs, Interval.le_of_isTop rfl⟩⟩
    rw [toList_of_segments hsegments]
    intro u hu
    obtain ⟨t, ht, hle⟩ := hhull.absorb_within htidy (s := ⟨key, value⟩) hkey.tight
      (fun s hs => hin s (hold s hs)) (fun _ => hin _ hnew) u hu
    rw [List.mem_singleton.1 ht, Segment.le_iff, hjoin] at hle
    exact hle.1

/-- The keys after a strong update are those before and those of its region. -/
theorem overwrite_keys : m'.keys = m.keys.join key := by
  obtain ⟨ss', heq, hupdated⟩ := exists_overwrite hss (toList_of_segments hss ▸ hm.toList.tidy) hkey hproper
  have hm' := (hm.overwrite hkey value).wellFormed h
  apply hm.keys_eq_join hm' hkey _ (overwrite_inside hm hss hkey hproper h)
  obtain rfl := Except.ok.inj (heq.symm.trans h)
  have hcovered : ∀ {n : Int} {a : Interval}, Covers ss' n a → ∃ u ∈ ss', (n : Rat) ∈ u.key.interval :=
    fun ⟨u, hu, hn, _⟩ => ⟨u, hu, hn⟩
  intro n hn
  by_cases hin : (n : Rat) ∈ key.interval
  · exact hcovered (hupdated.holds n hin)
  · obtain ⟨s, hs, hn⟩ := hn.resolve_left hin
    have hvalue := (hm.toList.wellFormed s hs).value_proper
    rw [toList_of_segments hss] at hs
    exact hcovered (hupdated.keeps n s.value hin hvalue ⟨s, hs, hn, Interval.le_refl _⟩)

/-- Whatever the ends of the regions, a strong update reads no less than the new value under the keys of its
region and no less than the old one elsewhere. -/
theorem le_valuesAt_overwritten (n : Int) :
    (if (n : Rat) ∈ key.interval then value else m.valuesAt (.single n)).le (m'.valuesAt (.single n)) = true := by
  obtain ⟨ss', heq, hupdated⟩ := exists_overwrite hss (toList_of_segments hss ▸ hm.toList.tidy) hkey hproper
  have hm' := (hm.overwrite hkey value).wellFormed h
  obtain rfl := Except.ok.inj (heq.symm.trans h)
  rw [valuesAt_single hm.toList.tidy, valuesAt_single hm'.toList.tidy, toList_of_segments hss]
  split
  · rename_i hn
    obtain ⟨u, hu, hnu, hle⟩ := hupdated.holds n hn
    exact Interval.le_trans hle (Segment.le_heldAt hu hnu)
  · rename_i hn
    exact Segment.heldAt_le_of_covers fun a ha => hupdated.keeps n a hn ha

/-- Where all ends can be moved by one, a strong update reads the new value under the keys of its region and the
old one elsewhere. -/
theorem valuesAt_overwritten (hexact : key.Exact) (hsexact : ∀ s ∈ ss, s.key.Exact) (n : Int) :
    m'.valuesAt (.single n) = if (n : Rat) ∈ key.interval then value else m.valuesAt (.single n) := by
  have hm' := (hm.overwrite hkey value).wellFormed h
  have hpartition := hm.partition ss hss
  obtain ⟨kept, hkept⟩ := Segment.exists_outside?
    (fun s hs => ⟨hpartition.ofKind s hs, hsexact s hs⟩) hkey hexact
  rw [valuesAt_single hm.toList.tidy, valuesAt_single hm'.toList.tidy, toList_of_segments hss]
  rcases overwrite_cases hss hproper h with ⟨kept', hkept', hsegments⟩ | ⟨hnone, -⟩
  · obtain rfl := Option.some.inj (hkept'.symm.trans hkept)
    rw [toList_of_segments hsegments]
    exact hpartition.tidy.heldAt_replaced hkey hkept n
  · rw [hnone] at hkept
    cases hkept

end Overwritten

/-- A strong update obeys the laws of arrays. If the finite ends of the region and of the stored keys are smaller
than `2 ^ 53` in magnitude, a key of the region holds exactly the new value afterwards and any other key exactly
what it held before; with larger ends each holds at least that. In all cases the keys are joined with the
region. -/
theorem overwrite_array (hm : m.WellFormed true) (hss : m.segments = some ss) (hkey : key.OfKind true)
    (hproper : key.isBottom = false) (hvalue : value.isBottom = false) :
    ∃ m', m.overwrite key value = .ok m' ∧
      (key.Exact → (∀ s ∈ ss, s.key.Exact) → ∀ n : Int,
        ((n : Rat) ∈ key.interval → m'.valuesAt (.single n) = value) ∧
        (¬ (n : Rat) ∈ key.interval → m'.valuesAt (.single n) = m.valuesAt (.single n))) ∧
      (∀ n : Int,
        ((n : Rat) ∈ key.interval → value.le (m'.valuesAt (.single n)) = true) ∧
        (¬ (n : Rat) ∈ key.interval → (m.valuesAt (.single n)).le (m'.valuesAt (.single n)) = true)) ∧
      m'.keys = m.keys.join key := by
  have hsegment : Segment.isBottom ⟨key, value⟩ = false := Segment.isBottom_eq_false_iff.2 ⟨hproper, hvalue⟩
  obtain ⟨m', h⟩ := (hm.overwrite hkey value).answers
  refine ⟨m', h, fun hexact hsexact n => ?_, fun n => ?_, overwrite_keys hm hss hkey hsegment h⟩
  · have hread := valuesAt_overwritten hm hss hkey hsegment h hexact hsexact n
    exact ⟨fun hn => by rw [hread, if_pos hn], fun hn => by rw [hread, if_neg hn]⟩
  · have hread := le_valuesAt_overwritten hm hss hkey hsegment h n
    exact ⟨fun hn => by rwa [if_pos hn] at hread, fun hn => by rwa [if_neg hn] at hread⟩

/-- The keys from 4 to 12 are overwritten where one segment reaches up to 9 and another one from 12 on. -/
theorem overwrite_array_straddling :
    let m : SegmentMap := ⟨true, some [⟨⟨.of .negInf 9, true⟩, .point 0⟩, ⟨⟨.of 12 .posInf, true⟩, .point 1⟩]⟩
    let key : Region := ⟨.of 4 12, true⟩
    m.WellFormed true ∧ key.OfKind true ∧ ∃ m', m.overwrite key (.point 7) = .ok m' ∧
      m'.valuesAt (.single 4) = .point 7 ∧ m'.valuesAt (.single 12) = .point 7 ∧
      m'.valuesAt (.single 3) = .point 0 ∧ m'.valuesAt (.single 13) = .point 1 ∧
      m'.valuesAt (.single (2 ^ 60)) = .point 1 ∧ m'.keys = ⟨.top, true⟩ := by
  intro m key
  have hm : m.WellFormed true :=
    wellFormed_of_partition (Segment.partition_iff.2 ⟨by decide +kernel, by decide +kernel⟩)
  have hkey : key.OfKind true := by decide +kernel
  have hvalue : (Interval.point 7).isBottom = false := by decide
  obtain ⟨m', h, hread, -, hkeys⟩ := overwrite_array hm rfl hkey (by decide) hvalue
  have hread := hread (by decide +kernel) (by decide +kernel)
  refine ⟨hm, hkey, m', h, (hread 4).1 ?_, (hread 12).1 ?_, ((hread 3).2 ?_).trans ?_, ((hread 13).2 ?_).trans ?_,
    ((hread (2 ^ 60)).2 ?_).trans ?_, hkeys.trans ?_⟩
  all_goals decide +kernel

end SegmentMap

end FlowAnalysis
