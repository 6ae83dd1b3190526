import FlowAnalysis.Proofs.Segment.Reading

/-!
Differences of regions. Cutting a region out of a region of whole numbers leaves exactly the whole numbers outside it,
in pieces that share no key. What is cut out may be of either kind, because only its whole numbers matter. There is no
answer exactly where the common whole numbers have a least or a greatest one that is too large to be moved by one. An
empty region has no part outside another one, but it is left as it is, as a piece that is empty itself.
-/

namespace FlowAnalysis

namespace Interval

variable {a b : Interval} {m : Int}

def wholes (a : Interval) : Set Int := {n | (n : Rat) ∈ a}

theorem wholes_integral (a : Interval) : a.integral.wholes = a.wholes :=
  Set.ext fun _ => mem_integral_iff

theorem wholes_meet (a b : Interval) : (a.meet b).wholes = a.wholes ∩ b.wholes :=
  Set.ext fun _ => mem_meet

theorem IsWhole.eq_of_wholes (ha : a.IsWhole) (hb : b.IsWhole) (h : a.wholes = b.wholes) : a = b :=
  Interval.le_antisymm (ha.le_of_mem h.subset) (hb.le_of_mem h.superset)

/-- Of what an interval shares with one that ends at whole numbers, only its own ends have to be rounded. -/
theorem IsWhole.integral_meet (ha : a.IsWhole) (b : Interval) : (a.meet b).integral = a.meet b.integral := by
  apply (isWhole_integral _).eq_of_wholes (ha.meet (isWhole_integral b))
  rw [wholes_integral, wholes_meet, wholes_meet, wholes_integral]

theorem IsWhole.isLeast_wholes_iff (ha : a.IsWhole) : IsLeast a.wholes m ↔ a.lower = .fin m := by
  constructor
  · rintro ⟨hm, hleast⟩
    obtain ⟨hlower, hupper⟩ := mem_iff.1 hm
    apply le_antisymm hlower
    apply ha.1.ge_of_forall hlower
    intro n hn hnm
    have hmem : (n : Rat) ∈ a := mem_iff.2 ⟨hn, (Bound.fin_le_fin.2 (Int.cast_le.2 hnm)).trans hupper⟩
    exact Bound.fin_le_fin.2 (Int.cast_le.2 (hleast hmem))
  · intro hlower
    have hends : a.lower ≤ a.upper := by
      rcases a.canonical with h | ⟨h, -⟩
      · exact h.1
      · cases hlower.symm.trans h
    refine ⟨mem_iff.2 ⟨hlower.le, hlower ▸ hends⟩, fun n hn => ?_⟩
    exact Int.cast_le.1 (Bound.fin_le_fin.1 (hlower ▸ (mem_iff.1 hn).1))

theorem IsWhole.isGreatest_wholes_iff (ha : a.IsWhole) : IsGreatest a.wholes m ↔ a.upper = .fin m := by
  constructor
  · rintro ⟨hm, hgreatest⟩
    obtain ⟨hlower, hupper⟩ := mem_iff.1 hm
    refine le_antisymm (ha.2.le_of_forall hupper ?_) hupper
    intro n hn hmn
    have hmem : (n : Rat) ∈ a := mem_iff.2 ⟨hlower.trans (Bound.fin_le_fin.2 (Int.cast_le.2 hmn)), hn⟩
    exact Bound.fin_le_fin.2 (Int.cast_le.2 (hgreatest hmem))
  · intro hupper
    have hends : a.lower ≤ a.upper := by
      rcases a.canonical with h | ⟨-, h⟩
      · exact h.1
      · cases hupper.symm.trans h
    refine ⟨mem_iff.2 ⟨hupper ▸ hends, hupper.ge⟩, fun n hn => ?_⟩
    exact Int.cast_le.1 (Bound.fin_le_fin.1 (hupper ▸ (mem_iff.1 hn).2))

end Interval

namespace Region

variable {r s : Region} {pieces : List Region}

/-- Cutting out a region of either kind is cutting out its whole numbers. -/
theorem without?_spanning (hr : r.OfKind true) (s : Region) :
    r.without? (.spanning true s.interval) = r.without? s := by
  have hwhole := hr.whole rfl
  have hshared : (r.interval.meet (spanning true s.interval).interval).integral =
      (r.interval.meet s.interval).integral := by
    rw [hwhole.integral_meet s.interval]
    exact (hwhole.meet (Interval.isWhole_integral _)).integral_eq
  rw [without?, without?, hshared]

/-- The pieces hold what lies outside, and nothing else. -/
theorem Cut.wholes_eq (h : Cut r s pieces) :
    {n | ∃ piece ∈ pieces, n ∈ piece.interval.wholes} = r.interval.wholes \ s.interval.wholes := by
  ext n
  constructor
  · rintro ⟨piece, hpiece, hn⟩
    have hcut := h.pieceOf piece hpiece
    exact ⟨Interval.mem_of_le hcut.inside hn, fun hs => Interval.not_apart_iff.2 ⟨n, hn, hs⟩ hcut.apart⟩
  · rintro ⟨hn, hout⟩
    exact h.covers n hn hout

/-- An empty region is not cut. -/
theorem without?_of_isBottom (hr : r.OfKind true) (hbottom : r.isBottom = true) (s : Region) :
    r.without? s = some [r] := by
  have hshared : (r.interval.meet s.interval).integral.isBottom = true := by
    rw [(hr.whole rfl).integral_meet]
    exact Interval.extremes.bottom_of_le (Interval.meet_le_left _ _) hbottom
  rw [without?, if_pos hr.integral_eq]
  exact if_pos hshared

theorem isInexact_iff {b : Bound} (hb : b.IsWhole) :
    isInexact b = true ↔ ∃ m : Int, 2 ^ 53 ≤ |m| ∧ b = .fin m := by
  rw [← not_iff_not, Bool.not_eq_true, isInexact_eq_false_iff]
  constructor
  · rintro h ⟨m, hm, rfl⟩
    have hlt : |m| < 2 ^ 53 := by exact_mod_cast h m rfl
    exact absurd hm (not_le.2 hlt)
  · intro h q hq
    obtain ⟨m, rfl⟩ : (Bound.fin q).IsWhole := hq ▸ hb
    have hlt : |m| < 2 ^ 53 := not_le.1 fun hm => h ⟨m, hm, hq⟩
    exact_mod_cast hlt

/-- There is no difference exactly if the common whole numbers end at one that is too large to be moved by one. -/
theorem without?_eq_none_iff_wholes (hr : r.OfKind true) (hs : s.OfKind true) :
    r.without? s = none ↔ ∃ m : Int, 2 ^ 53 ≤ |m| ∧
      (IsLeast (r.interval.wholes ∩ s.interval.wholes) m ∨
        IsGreatest (r.interval.wholes ∩ s.interval.wholes) m) := by
  have hwhole := (hr.whole rfl).meet (hs.whole rfl)
  rw [without?_eq_none_iff hr hs, isInexact_iff hwhole.1, isInexact_iff hwhole.2, ← exists_or]
  simp only [← and_or_left, ← hwhole.isLeast_wholes_iff, ← hwhole.isGreatest_wholes_iff, Interval.wholes_meet]

/-- The difference of regions is exact. Where a region of whole numbers can be cut, the pieces are regions of whole
numbers that share no key and together hold the whole numbers outside what is cut out; none of them is empty unless
the region was. It cannot be cut exactly if the common whole numbers have a least or a greatest one of magnitude
`2 ^ 53` or more. -/
theorem difference_exact (hr : r.OfKind true) (s : Region) :
    (∀ pieces, r.without? s = some pieces →
      (∀ piece ∈ pieces, piece.OfKind true) ∧
      ((∀ piece ∈ pieces, piece.isBottom = false) ↔ r.isBottom = false) ∧
      pieces.Pairwise Apart ∧
      {n | ∃ piece ∈ pieces, n ∈ piece.interval.wholes} = r.interval.wholes \ s.interval.wholes) ∧
    (r.without? s = none ↔ ∃ m : Int, 2 ^ 53 ≤ |m| ∧
      (IsLeast (r.interval.wholes ∩ s.interval.wholes) m ∨
        IsGreatest (r.interval.wholes ∩ s.interval.wholes) m)) := by
  have hs : (spanning true s.interval).OfKind true := spanning_ofKind true s.interval
  have hwholes : (spanning true s.interval).interval.wholes = s.interval.wholes :=
    Interval.wholes_integral s.interval
  -- only the whole numbers of `s` matter, so that it may be taken for a region of whole numbers
  rw [← without?_spanning hr s, ← hwholes]
  generalize spanning true s.interval = t at hs
  refine ⟨fun pieces hpieces => ?_, without?_eq_none_iff_wholes hr hs⟩
  cases hbottom : r.isBottom with
  | true =>
      obtain rfl : [r] = pieces := Option.some.inj ((without?_of_isBottom hr hbottom t).symm.trans hpieces)
      have hempty : r.interval.wholes = ∅ := by
        rw [Interval.isBottom_iff.1 hbottom]
        exact Set.eq_empty_of_forall_notMem fun _ => Interval.not_mem_bottom
      simp [hr, hbottom, hempty]
  | false =>
      have hcut := without?_cut hr hs hbottom hpieces
      refine ⟨fun piece h => (hcut.pieceOf piece h).ofKind, ?_, ?_, hcut.wholes_eq⟩
      · exact iff_of_true (fun piece h => (hcut.pieceOf piece h).proper) rfl
      · refine hcut.apart.imp_of_mem fun hp hq happart => ?_
        exact ((hcut.pieceOf _ hp).ofKind.tight.apart_iff (hcut.pieceOf _ hq).ofKind.tight).2 happart

/-- From `-7 / 2` upwards without the numbers from `1 / 2` to `5 / 2`: the whole numbers up to zero and those from three
on are left. A region that starts at `2 ^ 53` cannot be cut out. -/
theorem difference_exact_halves :
    let r := spanning true (.of (.fin (-7 / 2)) .posInf)
    let s := spanning false (.of (.fin (1 / 2)) (.fin (5 / 2)))
    r.OfKind true ∧
      (∃ pieces, r.without? s = some pieces ∧ pieces = [⟨.of (.fin (-3)) 0, true⟩, ⟨.of 3 .posInf, true⟩] ∧
        (∀ piece ∈ pieces, piece.isBottom = false) ∧ pieces.Pairwise Apart ∧
        {n | ∃ piece ∈ pieces, n ∈ piece.interval.wholes} = r.interval.wholes \ s.interval.wholes) ∧
      r.without? (single (2 ^ 53)) = none := by
  intro r s
  have hr : r.OfKind true := spanning_ofKind true _
  have hpieces : r.without? s = some [⟨.of (.fin (-3)) 0, true⟩, ⟨.of 3 .posInf, true⟩] := by decide +kernel
  obtain ⟨-, hproper, hapart, hwholes⟩ := (difference_exact hr s).1 _ hpieces
  refine ⟨hr, ⟨_, hpieces, rfl, hproper.2 (by decide +kernel), hapart, hwholes⟩, ?_⟩
  -- the region and the number have nothing but the number in common
  refine (difference_exact hr _).2.2 ⟨2 ^ 53, by decide, Or.inl ⟨⟨?_, ?_⟩, fun n hn => ?_⟩⟩
  · change ((2 ^ 53 : Int) : Rat) ∈ r.interval
    decide +kernel
  · exact mem_single.2 rfl
  · exact (mem_single.1 hn.2).ge

/-- A difference may have an empty piece. There is no whole number between `1 / 4` and `3 / 4`, and the region of them is
left as a piece outside any other; where nothing is left of a region that is not empty, there is no piece. -/
theorem difference_keeps_empty :
    let r := spanning true (.of (.fin (1 / 4)) (.fin (3 / 4)))
    let s := spanning true (.of (.fin (-5)) (.fin (-1)))
    r.OfKind true ∧ r.without? s = some [⟨.bottom, true⟩] ∧ (⟨.bottom, true⟩ : Region).isBottom = true ∧
      s.without? s = some [] := by
  intro r s
  exact ⟨spanning_ofKind true _, by decide +kernel, by decide, by decide +kernel⟩

end Region

end FlowAnalysis
