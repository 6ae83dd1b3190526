import FlowAnalysis.Proofs.Segment.Reading

/-!
Weak updates that keep the segmentation. Each update is cut along the segments that it touches and they along it,
so that in the end every key holds what it held joined with what the updates say of it, and nothing else. The
pieces of an update are taken up one after the other, and there is always an end to it.

Cutting moves an end by one. The ends of all pieces that ever come about lie next to ends of the regions at the
start, below a lower end or above an upper one, so there are no others to look at. An end at `2 ^ 53 - 1` leaves
pieces that start at `2 ^ 53`, which cannot be moved any more; but such a piece is unbounded, and it is cut again
only where another unbounded region is. Regions are divisible if this does not happen.
-/

namespace FlowAnalysis

namespace Interval

variable {E : Set Int} {a b : Interval}

/-- A lower end of the interval is in `E`, and so is the number behind an upper end. -/
structure EndsIn (E : Set Int) (a : Interval) : Prop where
  lower : ∀ m : Int, a.lower = .fin m → m ∈ E
  upper : ∀ m : Int, a.upper = .fin m → m + 1 ∈ E

theorem EndsIn.meet (ha : a.EndsIn E) (hb : b.EndsIn E) : (a.meet b).EndsIn E := by
  cases hproper : (a.meet b).isBottom with
  | true =>
      rw [isBottom_iff.1 hproper]
      refine ⟨fun m h => ?_, fun m h => ?_⟩
      · cases h
      · cases h
  | false =>
      obtain ⟨hlower, hupper⟩ := meet_bounds hproper
      constructor
      · intro m hm
        rcases max_choice a.lower b.lower with h | h
        · exact ha.lower m (by rw [← h, ← hlower, hm])
        · exact hb.lower m (by rw [← h, ← hlower, hm])
      · intro m hm
        rcases min_choice a.upper b.upper with h | h
        · exact ha.upper m (by rw [← h, ← hupper, hm])
        · exact hb.upper m (by rw [← h, ← hupper, hm])

/-- A test that finds intervals without a bound on one side: it goes over to larger intervals, and any two that
it finds share a number. -/
structure OneSided (test : Interval → Bool) : Prop where
  mono : ∀ {a b}, a.le b = true → test a = true → test b = true
  shared : ∀ {a b}, a.isBottom = false → b.isBottom = false → test a = true → test b = true → ¬ a.Apart b

def unboundedAbove (a : Interval) : Bool := a.upper = .posInf

def unboundedBelow (a : Interval) : Bool := a.lower = .negInf

theorem unboundedAbove_oneSided : OneSided unboundedAbove where
  mono hle h := by
    simp only [unboundedAbove, decide_eq_true_iff] at h ⊢
    exact Bound.posInf_le.1 (h ▸ (le_iff.1 hle).2)
  shared {a b} ha hb h h' := by
    simp only [unboundedAbove, decide_eq_true_iff] at h h'
    obtain ⟨p, hp⟩ := exists_mem ha
    obtain ⟨q, hq⟩ := exists_mem hb
    rw [mem_iff] at hp hq
    refine not_apart_iff.2 ⟨max p q, mem_iff.2 ⟨?_, h ▸ Bound.le_posInf _⟩, mem_iff.2 ⟨?_, h' ▸ Bound.le_posInf _⟩⟩
    · exact hp.1.trans (Bound.fin_le_fin.2 (le_max_left p q))
    · exact hq.1.trans (Bound.fin_le_fin.2 (le_max_right p q))

theorem unboundedBelow_oneSided : OneSided unboundedBelow where
  mono hle h := by
    simp only [unboundedBelow, decide_eq_true_iff] at h ⊢
    exact Bound.le_negInf.1 (h ▸ (le_iff.1 hle).1)
  shared {a b} ha hb h h' := by
    simp only [unboundedBelow, decide_eq_true_iff] at h h'
    obtain ⟨p, hp⟩ := exists_mem ha
    obtain ⟨q, hq⟩ := exists_mem hb
    rw [mem_iff] at hp hq
    refine not_apart_iff.2 ⟨min p q, mem_iff.2 ⟨h ▸ Bound.negInf_le _, ?_⟩, mem_iff.2 ⟨h' ▸ Bound.negInf_le _, ?_⟩⟩
    · exact (Bound.fin_le_fin.2 (min_le_left p q)).trans hp.2
    · exact (Bound.fin_le_fin.2 (min_le_right p q)).trans hq.2

end Interval

namespace Region

variable {E : Set Int} {r s : Region}

section Around

variable {inner : Interval} (hrends : r.interval.EndsIn E) (hinner : inner.EndsIn E) (hwhole : inner.IsWhole)
  (hproper : inner.isBottom = false)

include hrends hinner hwhole hproper

theorem endsIn_below (hexact : isInexact inner.lower = false) (hlt : r.interval.lower < inner.lower)
    (hpiece : (Interval.of r.interval.lower (inner.lower.sub 1)).isBottom = false) :
    (Interval.of r.interval.lower (inner.lower.sub 1)).EndsIn E := by
  obtain ⟨-, hne, -⟩ := Interval.isBottom_eq_false_iff.1 hproper
  obtain ⟨m, hm, hsmall⟩ := hwhole.1.exists_eq hexact ((Bound.negInf_le _).trans_lt hlt).ne' hne
  obtain ⟨hlower, hupper⟩ := Interval.of_bounds hpiece
  constructor
  · intro l hl
    exact hrends.lower l (hlower ▸ hl)
  · intro u hu
    rw [hupper, hm, Bound.sub_one_eq hsmall, Bound.fin.injEq, Int.cast_inj] at hu
    have hsucc : u + 1 = m := by omega
    exact hsucc ▸ hinner.lower m hm

theorem endsIn_above (hexact : isInexact inner.upper = false) (hlt : inner.upper < r.interval.upper)
    (hpiece : (Interval.of (inner.upper.add 1) r.interval.upper).isBottom = false) :
    (Interval.of (inner.upper.add 1) r.interval.upper).EndsIn E := by
  obtain ⟨-, -, hne⟩ := Interval.isBottom_eq_false_iff.1 hproper
  obtain ⟨m, hm, hsmall⟩ := hwhole.2.exists_eq hexact hne (hlt.trans_le (Bound.le_posInf _)).ne
  obtain ⟨hlower, hupper⟩ := Interval.of_bounds hpiece
  constructor
  · intro l hl
    rw [hlower, hm, Bound.add_one_eq hsmall, Bound.fin.injEq, Int.cast_inj] at hl
    exact hl ▸ hinner.upper m hm
  · intro u hu
    exact hrends.upper u (hupper ▸ hu)

end Around

/-- The ends of the pieces of a region are its own, or next to those of what is cut out. -/
theorem endsIn_without? (hr : r.OfKind true) (hs : s.OfKind true) (hrends : r.interval.EndsIn E)
    (hsends : s.interval.EndsIn E) {pieces : List Region} (h : r.without? s = some pieces) :
    ∀ piece ∈ pieces, piece.interval.EndsIn E := by
  have hinner := hrends.meet hsends
  have hwhole := (hr.whole rfl).meet (hs.whole rfl)
  rw [without?, if_pos hr.integral_eq, hwhole.integral_eq] at h
  dsimp only at h
  split at h
  · obtain rfl := Option.some.inj h
    exact List.forall_mem_singleton.2 hrends
  · rename_i hbottom
    split at h
    · cases h
    · rename_i hexact
      have hproper := Bool.eq_false_iff.2 hbottom
      obtain ⟨hlower, hupper⟩ := Bool.or_eq_false_iff.1 (Bool.eq_false_iff.2 hexact)
      obtain rfl := Option.some.inj h
      simp only [around, List.mem_filter, List.mem_append, List.mem_ite_nil_right, List.mem_singleton]
      rintro piece ⟨⟨hlt, rfl⟩ | ⟨hlt, rfl⟩, hpiece⟩
      · exact endsIn_below hrends hinner hwhole hproper hlower hlt (by simpa [isBottom] using hpiece)
      · exact endsIn_above hrends hinner hwhole hproper hupper hlt (by simpa [isBottom] using hpiece)

/-- Regions that can be cut at each other's ends, whatever is cut first: their finite ends are smaller than
`2 ^ 53` in magnitude, and where one of them ends at the last such number, no two are unbounded on that side. -/
@[mk_iff]
structure Divisible (keys : List Region) : Prop where
  exact : ∀ r ∈ keys, r.Exact
  above : (∃ r ∈ keys, r.interval.upper = .fin (2 ^ 53 - 1)) →
    keys.countP (fun r => r.interval.unboundedAbove) ≤ 1
  below : (∃ r ∈ keys, r.interval.lower = .fin (1 - 2 ^ 53)) →
    keys.countP (fun r => r.interval.unboundedBelow) ≤ 1

instance (keys : List Region) : Decidable (Divisible keys) := decidable_of_iff' _ (divisible_iff keys)

end Region

namespace Segment

open FlowAnalysis.Interval (OneSided unboundedAbove unboundedBelow)
open Region (OfKind Cut)

variable {E : Set Int} {s t : Segment} {ss ts pending known pending' known' later : List Segment} {n : Int}

/-- Segments over whole numbers whose ends are in `E` and can be cut at each other's ends. -/
structure Cuttable (E : Set Int) (ss : List Segment) : Prop where
  range : ∀ e ∈ E, -2 ^ 53 < e ∧ e ≤ 2 ^ 53
  ofKind : ∀ s ∈ ss, s.key.OfKind true
  ends : ∀ s ∈ ss, s.key.interval.EndsIn E
  above : 2 ^ 53 ∈ E → ss.countP (fun s => unboundedAbove s.key.interval) ≤ 1
  below : 1 - 2 ^ 53 ∈ E → ss.countP (fun s => unboundedBelow s.key.interval) ≤ 1

/-- A segment that reaches up to `2 ^ 53` is unbounded above, since all ends are smaller. -/
theorem Cuttable.unboundedAbove (h : Cuttable E ss) (hs : s ∈ ss)
    (hle : .fin ((2 ^ 53 : Int) : Rat) ≤ s.key.interval.upper) : unboundedAbove s.key.interval = true := by
  apply decide_eq_true
  cases hupper : s.key.interval.upper with
  | negInf => exact absurd hupper (Bound.ne_negInf_of_fin_le hle)
  | posInf => rfl
  | fin q =>
      obtain ⟨m, rfl⟩ : (Bound.fin q).IsWhole := hupper ▸ ((h.ofKind s hs).whole rfl).2
      obtain ⟨-, hm⟩ := h.range _ ((h.ends s hs).upper m hupper)
      rw [hupper, Bound.fin_le_fin, Int.cast_le] at hle
      omega

theorem Cuttable.unboundedBelow (h : Cuttable E ss) (hs : s ∈ ss)
    (hle : s.key.interval.lower ≤ .fin ((-2 ^ 53 : Int) : Rat)) : unboundedBelow s.key.interval = true := by
  apply decide_eq_true
  cases hlower : s.key.interval.lower with
  | posInf => exact absurd hlower (Bound.ne_posInf_of_le_fin hle)
  | negInf => rfl
  | fin q =>
      obtain ⟨m, rfl⟩ : (Bound.fin q).IsWhole := hlower ▸ ((h.ofKind s hs).whole rfl).1
      obtain ⟨hm, -⟩ := h.range _ ((h.ends s hs).lower m hlower)
      rw [hlower, Bound.fin_le_fin, Int.cast_le] at hle
      omega

theorem one_lt_countP {f : Segment → Bool} (hsub : [s, t].Subperm ss) (hs : f s = true) (ht : f t = true) :
    1 < ss.countP f := by
  have hcount := hsub.countP_le f
  rwa [List.countP_cons_of_pos hs, List.countP_cons_of_pos ht, List.countP_nil] at hcount

/-- What two of the segments share has ends that can be moved by one. If it started at `2 ^ 53`, both segments would
be unbounded above, and where that is an end there are no two of them. -/
theorem Cuttable.meet_exact (h : Cuttable E ss) (hsub : [s, t].Subperm ss)
    (hproper : (t.key.interval.meet s.key.interval).isBottom = false) :
    Region.isInexact (t.key.interval.meet s.key.interval).lower = false ∧
      Region.isInexact (t.key.interval.meet s.key.interval).upper = false := by
  obtain ⟨hs, ht⟩ : s ∈ ss ∧ t ∈ ss := ⟨hsub.subset (by simp), hsub.subset (by simp)⟩
  have hends := (h.ends t ht).meet (h.ends s hs)
  have hwhole := ((h.ofKind t ht).whole rfl).meet ((h.ofKind s hs).whole rfl)
  have hle := (Interval.isBottom_eq_false_iff.1 hproper).1
  obtain ⟨htlower, htupper⟩ := Interval.le_iff.1 (Interval.meet_le_left t.key.interval s.key.interval)
  obtain ⟨hslower, hsupper⟩ := Interval.le_iff.1 (Interval.meet_le_right t.key.interval s.key.interval)
  constructor
  · rw [Region.isInexact_eq_false_iff]
    intro q hq
    obtain ⟨m, rfl⟩ : (Bound.fin q).IsWhole := hq ▸ hwhole.1
    obtain ⟨hmin, hmax⟩ := h.range m (hends.lower m hq)
    have hne : m ≠ 2 ^ 53 := by
      rintro rfl
      rw [hq] at hle
      have htwo := one_lt_countP (f := fun s => Interval.unboundedAbove s.key.interval) hsub
        (h.unboundedAbove hs (hle.trans hsupper)) (h.unboundedAbove ht (hle.trans htupper))
      exact absurd (h.above (hends.lower _ hq)) (not_le.2 htwo)
    have habs : |m| < 2 ^ 53 := abs_lt.2 ⟨hmin, by omega⟩
    exact_mod_cast habs
  · rw [Region.isInexact_eq_false_iff]
    intro q hq
    obtain ⟨m, rfl⟩ : (Bound.fin q).IsWhole := hq ▸ hwhole.2
    obtain ⟨hmin, hmax⟩ := h.range (m + 1) (hends.upper m hq)
    have hne : m ≠ -2 ^ 53 := by
      rintro rfl
      rw [hq] at hle
      have htwo := one_lt_countP (f := fun s => Interval.unboundedBelow s.key.interval) hsub
        (h.unboundedBelow hs (hslower.trans hle)) (h.unboundedBelow ht (htlower.trans hle))
      exact absurd (h.below (hends.upper _ hq)) (not_le.2 htwo)
    have habs : |m| < 2 ^ 53 := abs_lt.2 ⟨by omega, by omega⟩
    exact_mod_cast habs

theorem Cuttable.subperm (h : Cuttable E ss) (hsub : ts.Subperm ss) : Cuttable E ts where
  range := h.range
  ofKind s hs := h.ofKind s (hsub.subset hs)
  ends s hs := h.ends s (hsub.subset hs)
  above hE := (hsub.countP_le _).trans (h.above hE)
  below hE := (hsub.countP_le _).trans (h.below hE)

/-! ### Cutting two segments along each other -/

/-- What two segments over whole numbers are cut into. Each part holds under its keys no more than the two did. -/
structure Parts (s t : Segment) (parts : List Segment) : Prop where
  tidy : Tidy parts
  ofKind : ∀ u ∈ parts, u.key.OfKind true
  inside : ∀ u ∈ parts, u.key.interval.le s.key.interval = true ∨ u.key.interval.le t.key.interval = true
  ends : ∀ E, s.key.interval.EndsIn E → t.key.interval.EndsIn E → ∀ u ∈ parts, u.key.interval.EndsIn E
  held : ∀ n : Int, (heldAt parts n).le (heldAt [s, t] n) = true

theorem Tidy.countP_le_one {test : Interval → Bool} (h : Tidy ss) (htest : OneSided test) :
    ss.countP (fun s => test s.key.interval) ≤ 1 := by
  apply Segment.countP_le_one
  apply h.apart.imp_of_mem
  intro s t hs ht happart
  have hs := isBottom_eq_false_iff.1 (h.proper s hs)
  have ht := isBottom_eq_false_iff.1 (h.proper t ht)
  by_contra hboth
  rw [not_or, Bool.not_eq_false, Bool.not_eq_false] at hboth
  exact htest.shared hs.1 ht.1 hboth.1 hboth.2 happart

/-- Of the parts no more are unbounded on a side than of the two segments. -/
theorem Parts.countP_le {test : Interval → Bool} {parts : List Segment} (h : Parts s t parts)
    (htest : OneSided test) :
    parts.countP (fun s => test s.key.interval) ≤ [s, t].countP (fun s => test s.key.interval) := by
  by_cases hnone : [s, t].countP (fun s => test s.key.interval) = 0
  · rw [hnone, Nat.le_zero, List.countP_eq_zero]
    rw [List.countP_eq_zero, List.forall_mem_cons, List.forall_mem_singleton] at hnone
    intro u hu hunbounded
    rcases h.inside u hu with hle | hle
    · exact hnone.1 (htest.mono hle hunbounded)
    · exact hnone.2 (htest.mono hle hunbounded)
  · exact (h.tidy.countP_le_one htest).trans (Nat.one_le_iff_ne_zero.2 hnone)

/-- Segments come from others by leaving some out, or by cutting two of them along each other. -/
inductive Divides (ss ts : List Segment) : Prop where
  | fewer (hsub : ts.Subperm ss)
  | parts {s t : Segment} {parts rest : List Segment} (hparts : Parts s t parts)
      (hbefore : ss.Perm ([s, t] ++ rest)) (hafter : ts.Perm (parts ++ rest))

theorem Divides.append_right (h : Divides ss ts) (later : List Segment) :
    Divides (ss ++ later) (ts ++ later) := by
  cases h with
  | fewer hsub => exact .fewer ((List.subperm_append_right later).2 hsub)
  | @parts s t parts rest hparts hbefore hafter =>
      have hbefore' : (ss ++ later).Perm ([s, t] ++ (rest ++ later)) := by
        rw [← List.append_assoc]
        exact hbefore.append_right later
      have hafter' : (ts ++ later).Perm (parts ++ (rest ++ later)) := by
        rw [← List.append_assoc]
        exact hafter.append_right later
      exact .parts hparts hbefore' hafter'

theorem Cuttable.divide (h : Cuttable E ss) (hdivides : Divides ss ts) : Cuttable E ts := by
  cases hdivides with
  | fewer hsub => exact h.subperm hsub
  | @parts s t parts rest hparts hbefore hafter =>
      have hkept : rest ⊆ ss := fun u hu => hbefore.mem_iff.2 (List.mem_append_right _ hu)
      have hends := hparts.ends E (h.ends s (hbefore.mem_iff.2 (by simp))) (h.ends t (hbefore.mem_iff.2 (by simp)))
      have hcount : ∀ {test}, OneSided test →
          ts.countP (fun s => test s.key.interval) ≤ ss.countP (fun s => test s.key.interval) := by
        intro test htest
        rw [hafter.countP_eq, hbefore.countP_eq, List.countP_append, List.countP_append]
        exact Nat.add_le_add_right (hparts.countP_le htest) _
      refine ⟨h.range, fun u hu => ?_, fun u hu => ?_, fun hE => ?_, fun hE => ?_⟩
      · rcases List.mem_append.1 (hafter.mem_iff.1 hu) with hu | hu
        · exact hparts.ofKind u hu
        · exact h.ofKind u (hkept hu)
      · rcases List.mem_append.1 (hafter.mem_iff.1 hu) with hu | hu
        · exact hends u hu
        · exact h.ends u (hkept hu)
      · exact (hcount Interval.unboundedAbove_oneSided).trans (h.above hE)
      · exact (hcount Interval.unboundedBelow_oneSided).trans (h.below hE)

theorem heldAt_mono (h : ss ⊆ ts) : (heldAt ss n).le (heldAt ts n) = true :=
  heldAt_le_iff.2 fun _ hs hn => le_heldAt (h hs) hn

theorem heldAt_perm (h : ss.Perm ts) : heldAt ss n = heldAt ts n :=
  Interval.le_antisymm (heldAt_mono h.subset) (heldAt_mono h.symm.subset)

theorem heldAt_append_le (h : (heldAt ss n).le (heldAt ts n) = true) (later : List Segment) :
    (heldAt (ss ++ later) n).le (heldAt (ts ++ later) n) = true := by
  rw [heldAt_append, heldAt_append]
  exact Interval.join_le (Interval.le_trans h (Interval.le_join_left _ _)) (Interval.le_join_right _ _)

theorem Divides.heldAt_le (h : Divides ss ts) (n : Int) : (heldAt ts n).le (heldAt ss n) = true := by
  cases h with
  | fewer hsub => exact heldAt_mono hsub.subset
  | parts hparts hbefore hafter =>
      rw [heldAt_perm hbefore, heldAt_perm hafter]
      exact heldAt_append_le (hparts.held n) _

/-- Two segments with the same key become one. -/
theorem parts_joined (ht : t.key.OfKind true) (htproper : t.isBottom = false) (hkey : t.key = s.key) :
    Parts s t [⟨t.key, t.value.join s.value⟩] where
  tidy := by
    obtain ⟨hkproper, hvproper⟩ := isBottom_eq_false_iff.1 htproper
    refine tidy_cons.2 ⟨ht.tight, isBottom_eq_false_iff.2 ⟨hkproper, ?_⟩, List.forall_mem_nil _, .nil⟩
    exact Interval.isBottom_eq_false_of_le (Interval.le_join_left _ _) hvproper
  ofKind := List.forall_mem_singleton.2 ht
  inside := List.forall_mem_singleton.2 (Or.inr (Interval.le_refl _))
  ends _ _ htends := List.forall_mem_singleton.2 htends
  held n := by
    rw [heldAt_le_iff, List.forall_mem_singleton]
    intro hn
    have hns : (n : Rat) ∈ s.key.interval := hkey ▸ hn
    exact Interval.join_le (le_heldAt (by simp) hn) (le_heldAt (by simp) hns)

section Cut

variable {oldRest newRest : List Region} (hs : s.key.OfKind true) (ht : t.key.OfKind true)
  (hproper : s.isBottom = false) (htproper : t.isBottom = false) (htouch : touches s.key t = true)
  (hold : t.key.without? s.key = some oldRest) (hnew : s.key.without? t.key = some newRest)

include hs ht hproper htproper htouch hold hnew

/-- Two segments that share keys become the pieces of both outside the other and what they share. -/
theorem parts_cut : Parts s t (spread s.value newRest ++
    (spread t.value oldRest ++ [⟨t.key.meet s.key, t.value.join s.value⟩])) := by
  obtain ⟨holdcut, hnewcut⟩ := cut_of_without? ht.tight hs.tight htproper hproper hold hnew
  have hmeet := ht.tight.meet_interval hs.tight
  have hsingle : Tidy [t] := tidy_cons.2 ⟨ht.tight, htproper, List.forall_mem_nil _, .nil⟩
  have htidy : Tidy (spread t.value oldRest ++ [⟨t.key.meet s.key, t.value.join s.value⟩]) :=
    hsingle.cut hs.tight htouch holdcut
  have hinside : ∀ u ∈ spread t.value oldRest ++ [⟨t.key.meet s.key, t.value.join s.value⟩],
      u.key.interval.le t.key.interval = true := by
    simp only [List.forall_mem_append, List.forall_mem_singleton, mem_spread]
    constructor
    · rintro _ ⟨piece, hpiece, rfl⟩
      exact (holdcut.pieceOf piece hpiece).inside
    · rw [hmeet]
      exact Interval.meet_le_left _ _
  refine ⟨?tidy, ?ofKind, ?inside, fun E hsends htends => ?ends, fun n => ?held⟩
  case tidy =>
    -- The pieces of `s` lie outside `t`, and all other parts inside it.
    refine Tidy.append (.spread hnewcut (isBottom_eq_false_iff.1 hproper).2) htidy fun u hu v hv => ?_
    obtain ⟨piece, hpiece, rfl⟩ := mem_spread.1 hu
    exact (hnewcut.pieceOf piece hpiece).apart.mono (Interval.le_refl _) (hinside v hv)
  case ofKind =>
    simp only [List.forall_mem_append, List.forall_mem_singleton, mem_spread]
    refine ⟨?_, ?_, ht.meet hs⟩
    · rintro _ ⟨piece, hpiece, rfl⟩
      exact (hnewcut.pieceOf piece hpiece).ofKind
    · rintro _ ⟨piece, hpiece, rfl⟩
      exact (holdcut.pieceOf piece hpiece).ofKind
  case inside =>
    refine List.forall_mem_append.2 ⟨fun u hu => ?_, fun u hu => Or.inr (hinside u hu)⟩
    obtain ⟨piece, hpiece, rfl⟩ := mem_spread.1 hu
    exact Or.inl (hnewcut.pieceOf piece hpiece).inside
  case ends =>
    simp only [List.forall_mem_append, List.forall_mem_singleton, mem_spread]
    refine ⟨?_, ?_, hmeet ▸ htends.meet hsends⟩
    · rintro _ ⟨piece, hpiece, rfl⟩
      exact Region.endsIn_without? hs ht hsends htends hnew piece hpiece
    · rintro _ ⟨piece, hpiece, rfl⟩
      exact Region.endsIn_without? ht hs htends hsends hold piece hpiece
  case held =>
    have hheld : ((n : Rat) ∈ s.key.interval → s.value.le (heldAt [s, t] n) = true) ∧
        ((n : Rat) ∈ t.key.interval → t.value.le (heldAt [s, t] n) = true) :=
      ⟨le_heldAt (by simp), le_heldAt (by simp)⟩
    simp only [heldAt_le_iff, List.forall_mem_append, List.forall_mem_singleton, mem_spread]
    refine ⟨?_, ?_, fun hn => ?_⟩
    · rintro _ ⟨piece, hpiece, rfl⟩ hn
      exact hheld.1 (Interval.mem_of_le (hnewcut.pieceOf piece hpiece).inside hn)
    · rintro _ ⟨piece, hpiece, rfl⟩ hn
      exact hheld.2 (Interval.mem_of_le (holdcut.pieceOf piece hpiece).inside hn)
    · rw [hmeet, Interval.mem_meet] at hn
      exact Interval.join_le (hheld.2 hn.1) (hheld.1 hn.2)

end Cut

/-- As long as all segments can be cut along each other, a step of a refinement does that and never merges. -/
theorem RefineStep.divides (hstep : RefineStep pending known pending' known') (h : Refinable pending known)
    (hcut : Cuttable E (pending ++ known)) : Divides (pending ++ known) (pending' ++ known') := by
  have htwo : ∀ {s t : Segment} {rest others : List Segment}, known.Perm (t :: others) →
      (s :: rest ++ known).Perm ([s, t] ++ (rest ++ others)) := by
    intro s t rest others hperm
    exact ((hperm.append_left rest).trans List.perm_middle).cons s
  cases hstep with
  | empty hbottom => exact .fewer (List.sublist_cons_self _ _).subperm
  | @fresh s _ _ hproper hfind =>
      rw [← List.append_assoc]
      exact .fewer (List.perm_append_singleton s (pending' ++ known)).subperm
  | @joined s t _ _ others hproper hperm hkey =>
      obtain ⟨-, htproper, -, -⟩ := tidy_cons.1 (h.tidy.perm hperm)
      have ht := hcut.ofKind t ((htwo hperm).mem_iff.2 (by simp))
      refine .parts (parts_joined ht htproper hkey) (htwo hperm) ?_
      rw [← List.append_assoc]
      exact List.perm_append_comm
  | @cut s t rest _ others oldRest newRest hproper hperm htouch hold hnew =>
      obtain ⟨-, htproper, -, -⟩ := tidy_cons.1 (h.tidy.perm hperm)
      have hs := hcut.ofKind s ((htwo hperm).mem_iff.2 (by simp))
      have ht := hcut.ofKind t ((htwo hperm).mem_iff.2 (by simp))
      refine .parts (parts_cut hs ht hproper htproper htouch hold hnew) (htwo hperm) ?_
      rw [List.append_assoc, List.append_assoc, List.append_assoc (spread s.value newRest)]
      refine (List.reverse_perm _).append ?_
      rw [← List.append_assoc rest]
      exact List.perm_append_comm
  | @merged s t _ _ others hproper hperm htouch huncut =>
      -- This does not happen: what the two share has ends that can be moved, so both can be cut.
      have hs := hcut.ofKind s ((htwo hperm).mem_iff.2 (by simp))
      have ht := hcut.ofKind t ((htwo hperm).mem_iff.2 (by simp))
      have hsub : [s, t].Subperm (s :: pending' ++ known) :=
        (List.sublist_append_left [s, t] _).subperm.trans (htwo hperm).symm.subperm
      have hmeet : (t.key.interval.meet s.key.interval).isBottom = false :=
        Bool.eq_false_iff.2 ((touches_iff ht.tight hs.tight).1 htouch)
      have hexact := hcut.meet_exact hsub hmeet
      obtain ⟨oldRest, hold⟩ := Region.exists_without? ht hs hexact
      obtain ⟨newRest, hnew⟩ := Region.exists_without? hs ht (Interval.meet_comm _ _ ▸ hexact)
      rw [hold, hnew] at huncut
      simp at huncut

/-! ### Refining by one segment after the other -/

theorem refine_of_isBottom (known : List Segment) (h : s.isBottom = true) : refine known s = known := by
  rw [refine, refineWith, if_pos h, refineWith_nil]

theorem foldl_refine_filter (updates known : List Segment) :
    (updates.filter fun s => !s.isBottom).foldl refine known = updates.foldl refine known := by
  rw [List.foldl_filter]
  congr 1
  funext known s
  cases h : s.isBottom with
  | true => exact (refine_of_isBottom known h).symm
  | false => rfl

/-- What a refinement by segments that can be cut preserves: all segments, those that come `later` included,
stay cuttable, and at the key `n` they hold no more than `bound`. -/
structure Cutting (E : Set Int) (later : List Segment) (n : Int) (bound : Interval)
    (pending known : List Segment) : Prop where
  cuttable : Cuttable E (pending ++ known ++ later)
  held : (heldAt (pending ++ known) n).le bound = true

theorem Cutting.step {bound : Interval} (hcutting : Cutting E later n bound pending known)
    (h : Refinable pending known) (hstep : RefineStep pending known pending' known') :
    Cutting E later n bound pending' known' := by
  have hcut := hcutting.cuttable.subperm (List.sublist_append_left (pending ++ known) later).subperm
  have hdivides := hstep.divides h hcut
  exact ⟨hcutting.cuttable.divide (hdivides.append_right later),
    Interval.le_trans (hdivides.heldAt_le n) hcutting.held⟩

/-- Refining by one segment keeps the others cuttable, those still to come included, and no key holds more. -/
theorem Cuttable.refine (h : Tidy known) (hcut : Cuttable E ([s] ++ known ++ later)) (n : Int) :
    Cuttable E (Segment.refine known s ++ later) ∧
      (heldAt (Segment.refine known s) n).le (heldAt ([s] ++ known) n) = true := by
  have hs : s.key.OfKind true := hcut.ofKind s (by simp)
  obtain ⟨hcuttable, hheld⟩ := refineWith_ends (P := Cutting E later n (heldAt ([s] ++ known) n))
    (fun hstep hrefinable hcutting => hcutting.step hrefinable hstep) (refinable_singleton h hs.tight)
    (load_singleton_le s known) ⟨hcut, Interval.le_refl _⟩
  exact ⟨hcuttable, hheld⟩

theorem Cuttable.heldAt_refineAll {updates : List Segment} (h : Tidy known) (hcut : Cuttable E (known ++ updates))
    (n : Int) : (heldAt (updates.foldl Segment.refine known) n).le (heldAt (known ++ updates) n) = true := by
  induction updates generalizing known with
  | nil =>
      rw [List.append_nil]
      exact Interval.le_refl _
  | cons s updates ih =>
      have hperm : (known ++ s :: updates).Perm ([s] ++ known ++ updates) := List.perm_middle
      have hcut := hcut.subperm hperm.symm.subperm
      have hs : s.key.OfKind true := hcut.ofKind s (by simp)
      obtain ⟨hcut, hle⟩ := hcut.refine h n
      rw [heldAt_perm hperm]
      exact Interval.le_trans (ih (h.refine hs.tight) hcut) (heldAt_append_le hle updates)

theorem Tidy.le_heldAt_refineAll {updates : List Segment} (h : Tidy known) (hupdates : ∀ s ∈ updates, s.key.Tight)
    (n : Int) : (heldAt (known ++ updates) n).le (heldAt (updates.foldl Segment.refine known) n) = true := by
  induction updates generalizing known with
  | nil =>
      rw [List.append_nil]
      exact Interval.le_refl _
  | cons s updates ih =>
      obtain ⟨hs, hupdates⟩ := List.forall_mem_cons.1 hupdates
      have hperm : (known ++ s :: updates).Perm ([s] ++ known ++ updates) := List.perm_middle
      have hle : (heldAt ([s] ++ known) n).le (heldAt (Segment.refine known s) n) = true :=
        heldAt_le_of_covers fun a ha hcovers => h.covers_refine hs ha hcovers
      rw [heldAt_perm hperm]
      exact Interval.le_trans (heldAt_append_le hle updates) (ih (h.refine hs) hupdates)

/-- The lower ends of the keys and the numbers above their upper ends. -/
def cutPoints (ss : List Segment) : Set Int :=
  {e | ∃ s ∈ ss, s.key.interval.lower = .fin e ∨ s.key.interval.upper = .fin ((e - 1 : Int) : Rat)}

/-- A cut point is less than `2 ^ 53` away from zero, or the number below it is. -/
theorem exists_end_of_mem_cutPoints {e : Int} (h : Region.Divisible (ss.map Segment.key)) (he : e ∈ cutPoints ss) :
    ∃ s ∈ ss, s.key.interval.lower = .fin e ∧ |e| < 2 ^ 53 ∨
      s.key.interval.upper = .fin ((e - 1 : Int) : Rat) ∧ |e - 1| < 2 ^ 53 := by
  obtain ⟨s, hs, hend⟩ := he
  have hexact : s.key.Exact := h.exact s.key (List.mem_map_of_mem hs)
  rcases hend with hlower | hupper
  · have hsmall := hexact e (Or.inl hlower)
    exact ⟨s, hs, Or.inl ⟨hlower, by exact_mod_cast hsmall⟩⟩
  · have hsmall := hexact _ (Or.inr hupper)
    exact ⟨s, hs, Or.inr ⟨hupper, by exact_mod_cast hsmall⟩⟩

/-- Segments with divisible keys can be cut at the ends of their keys. -/
theorem cuttable_cutPoints (hss : ∀ s ∈ ss, s.key.OfKind true) (h : Region.Divisible (ss.map Segment.key)) :
    Cuttable (cutPoints ss) ss where
  range e he := by
    obtain ⟨s, -, ⟨-, hsmall⟩ | ⟨-, hsmall⟩⟩ := exists_end_of_mem_cutPoints h he
    · rw [abs_lt] at hsmall
      omega
    · rw [abs_lt] at hsmall
      omega
  ofKind := hss
  ends s hs := by
    refine ⟨fun m hm => ⟨s, hs, Or.inl hm⟩, fun m hm => ⟨s, hs, Or.inr ?_⟩⟩
    rw [hm, add_sub_cancel_right]
  above he := by
    obtain ⟨s, hs, ⟨-, hsmall⟩ | ⟨hupper, -⟩⟩ := exists_end_of_mem_cutPoints h he
    · exact absurd hsmall (by decide)
    · have hcount := h.above ⟨s.key, List.mem_map_of_mem hs, by rw [hupper]; norm_num⟩
      rwa [List.countP_map] at hcount
  below he := by
    obtain ⟨s, hs, ⟨hlower, -⟩ | ⟨-, hsmall⟩⟩ := exists_end_of_mem_cutPoints h he
    · have hcount := h.below ⟨s.key, List.mem_map_of_mem hs, by rw [hlower]; norm_num⟩
      rwa [List.countP_map] at hcount
    · exact absurd hsmall (by decide)

/-! ### Termination -/

/-- The refinement takes up all of `pending` in some number of turns and then goes on, from the segments
`result`, with whatever is pending behind. -/
def Settles (pending known result : List Segment) : Prop :=
  ∃ turns, ∀ fuel rest, refineWith (turns + fuel) (pending ++ rest) known = refineWith fuel rest result

theorem Settles.append {middle result : List Segment} (h : Settles ss known middle)
    (h' : Settles ts middle result) : Settles (ss ++ ts) known result := by
  obtain ⟨turns, h⟩ := h
  obtain ⟨turns', h'⟩ := h'
  refine ⟨turns + turns', fun fuel rest => ?_⟩
  rw [Nat.add_assoc, List.append_assoc, h, h']

theorem Refinable.exists_settled (h : Refinable pending known) :
    ∃ turns ≤ load pending known, ∃ result, ∀ fuel rest,
      refineWith (turns + fuel) (pending ++ rest) known = refineWith fuel rest result := by
  induction hload : load pending known using Nat.strong_induction_on generalizing pending known with
  | _ size ih =>
      cases pending with
      | nil => exact ⟨0, Nat.zero_le _, known, fun fuel rest => by rw [Nat.zero_add, List.nil_append]⟩
      | cons s pending =>
          obtain ⟨left, known', hstep, heq⟩ := refineWith_step s known
          have hless := (hstep pending).load_lt h
          rw [hload] at hless
          obtain ⟨turns, hturns, result, hrest⟩ := ih _ hless (h.step (hstep pending)) rfl
          refine ⟨turns + 1, by omega, result, fun fuel rest => ?_⟩
          rw [Nat.add_right_comm, List.cons_append, heq, ← List.append_assoc, hrest]

theorem Tidy.settles_refine (h : Tidy known) (hs : s.key.Tight) : Settles [s] known (Segment.refine known s) := by
  obtain ⟨turns, hturns, result, hrest⟩ := (refinable_singleton h hs).exists_settled
  obtain ⟨fuel, hfuel⟩ := Nat.exists_eq_add_of_le (hturns.trans (load_singleton_le s known))
  have hresult : Segment.refine known s = result := by
    rw [Segment.refine, hfuel, ← List.append_nil [s], hrest, refineWith_nil]
  exact ⟨turns, hresult ▸ hrest⟩

theorem Tidy.settles_refineAll {updates : List Segment} (h : Tidy known) (hupdates : ∀ s ∈ updates, s.key.Tight) :
    Settles updates known (updates.foldl Segment.refine known) := by
  induction updates generalizing known with
  | nil => exact ⟨0, fun fuel rest => by rw [Nat.zero_add, List.nil_append, List.foldl_nil]⟩
  | cons s updates ih =>
      obtain ⟨hs, hupdates⟩ := List.forall_mem_cons.1 hupdates
      exact (h.settles_refine hs).append (ih (h.refine hs) hupdates)

end Segment

namespace SegmentMap

open Region (OfKind)
open Segment (Tidy heldAt)

variable {m : SegmentMap} {ss updates : List Segment}

theorem WellFormed.update_eq (hm : m.WellFormed true) (hss : m.segments = some ss)
    (hupdates : ∀ s ∈ updates, s.key.OfKind true) :
    m.update updates = .ok ⟨m.integral, some (updates.foldl Segment.refine ss)⟩ := by
  rw [SegmentMap.update, hss]
  exact withSegments_eq ((hm.partition ss hss).refineAll hupdates).tidy

/-- A weak update is a join at every key. It always comes to an end, and afterwards each key holds at least what it
held joined with the values of the updates to it. If the stored keys and those of the updates are divisible, it
holds exactly that. -/
theorem update_pointwise (hm : m.WellFormed true) (hss : m.segments = some ss)
    (hupdates : ∀ s ∈ updates, s.key.OfKind true) :
    ∃ ss', m.update updates = .ok ⟨m.integral, some ss'⟩ ∧ Segment.Settles updates ss ss' ∧
      ∀ n : Int,
        let joined := (m.valuesAt (.single n)).join (heldAt (updates.filter fun s => !s.isBottom) n)
        joined.le (valuesAt ⟨m.integral, some ss'⟩ (.single n)) = true ∧
        (Region.Divisible ((ss ++ updates.filter fun s => !s.isBottom).map Segment.key) →
          valuesAt ⟨m.integral, some ss'⟩ (.single n) = joined) := by
  have hpartition := hm.partition ss hss
  have hproper : ∀ s ∈ updates.filter (fun s => !s.isBottom), s.key.OfKind true := fun s hs =>
    hupdates s (List.mem_of_mem_filter hs)
  have htidy : Tidy (updates.foldl Segment.refine ss) := (hpartition.refineAll hupdates).tidy
  refine ⟨updates.foldl Segment.refine ss, hm.update_eq hss hupdates,
    hpartition.tidy.settles_refineAll fun s hs => (hupdates s hs).tight, fun n => ?_⟩
  have hread : valuesAt ⟨m.integral, some (updates.foldl Segment.refine ss)⟩ (.single n) =
      heldAt (updates.foldl Segment.refine ss) n :=
    valuesAt_single (m := ⟨m.integral, some (updates.foldl Segment.refine ss)⟩) htidy n
  have hleast := hpartition.tidy.le_heldAt_refineAll (fun s hs => (hproper s hs).tight) n
  rw [Segment.foldl_refine_filter, Segment.heldAt_append] at hleast
  rw [hread, valuesAt_single hm.toList.tidy, toList_of_segments hss]
  refine ⟨hleast, fun hdivisible => Interval.le_antisymm ?_ hleast⟩
  have hcut := Segment.cuttable_cutPoints (List.forall_mem_append.2 ⟨hpartition.ofKind, hproper⟩) hdivisible
  have hmost := hcut.heldAt_refineAll hpartition.tidy n
  rwa [Segment.foldl_refine_filter, Segment.heldAt_append] at hmost

/-- Updates that overlap the stored keys and each other, one of them empty and two unbounded, where a stored key
ends at the last number that can be moved. -/
theorem update_pointwise_overlapping :
    let m : SegmentMap := ⟨true, some [⟨⟨.of .negInf 9, true⟩, .point 0⟩,
      ⟨⟨.of 12 (.fin (2 ^ 53 - 1)), true⟩, .point 1⟩]⟩
    let updates : List Segment := [⟨⟨.of 4 .posInf, true⟩, .point 7⟩, ⟨⟨.of 8 20, true⟩, .bottom⟩,
      ⟨⟨.of .negInf 2, true⟩, .point 2⟩, ⟨⟨.of 9 11, true⟩, .of 3 5⟩]
    m.WellFormed true ∧ (∀ s ∈ updates, s.key.OfKind true) ∧ ∃ ss', m.update updates = .ok ⟨true, some ss'⟩ ∧
      Segment.Settles updates m.toList ss' ∧
      valuesAt ⟨true, some ss'⟩ (.single 2) = .of 0 2 ∧ valuesAt ⟨true, some ss'⟩ (.single 3) = .point 0 ∧
      valuesAt ⟨true, some ss'⟩ (.single 9) = .of 0 7 ∧ valuesAt ⟨true, some ss'⟩ (.single 10) = .of 3 7 ∧
      valuesAt ⟨true, some ss'⟩ (.single (2 ^ 53 - 1)) = .of 1 7 ∧
      valuesAt ⟨true, some ss'⟩ (.single (2 ^ 53)) = .point 7 := by
  intro m updates
  have hm : m.WellFormed true :=
    wellFormed_of_partition (Segment.partition_iff.2 ⟨by decide +kernel, by decide +kernel⟩)
  have hupdates : ∀ s ∈ updates, s.key.OfKind true := by decide +kernel
  have hdivisible : Region.Divisible ((m.toList ++ updates.filter fun s => !s.isBottom).map Segment.key) := by
    decide +kernel
  obtain ⟨ss', h, hsettles, hread⟩ := update_pointwise hm rfl hupdates
  have hread := fun n => (hread n).2 hdivisible
  refine ⟨hm, hupdates, ss', h, hsettles, (hread 2).trans ?_, (hread 3).trans ?_, (hread 9).trans ?_,
    (hread 10).trans ?_, (hread (2 ^ 53 - 1)).trans ?_, (hread (2 ^ 53)).trans ?_⟩
  all_goals decide +kernel

/-- The ends of all keys can be moved by one here, and yet more is read under 10 than is joined there. The first
update leaves a piece that ends at `-2 ^ 53`, along which the second one is not cut. -/
theorem update_pointwise_unbounded :
    let m : SegmentMap := ⟨true, some [⟨⟨.top, true⟩, .point 0⟩]⟩
    let updates : List Segment := [⟨.single (1 - 2 ^ 53), .point 1⟩, ⟨⟨.of .negInf 5, true⟩, .point 2⟩]
    m.WellFormed true ∧ (∀ s ∈ updates, s.key.OfKind true) ∧ (∀ s ∈ m.toList ++ updates, s.key.Exact) ∧
      ∃ m', m.update updates = .ok m' ∧ m'.valuesAt (.single 10) = .of 0 2 ∧
        (m.valuesAt (.single 10)).join (heldAt (updates.filter fun s => !s.isBottom) 10) = .point 0 := by
  intro m updates
  have hm : m.WellFormed true :=
    wellFormed_of_partition (Segment.partition_iff.2 ⟨by decide +kernel, by decide +kernel⟩)
  have hupdates : ∀ s ∈ updates, s.key.OfKind true := by decide +kernel
  refine ⟨hm, hupdates, ?_, _, hm.update_eq rfl hupdates, ?_, ?_⟩
  all_goals decide +kernel

end SegmentMap

end FlowAnalysis
