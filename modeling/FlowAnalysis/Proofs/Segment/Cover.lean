import FlowAnalysis.Proofs.Segment.Order
import Mathlib.Algebra.Order.BigOperators.Group.List
import Mathlib.Algebra.Order.Ring.Nat

/-!
What updates keep. Segments cover a value under a whole number if one of them holds it there. A strong update
covers its value under its keys and keeps what was covered under all others, and a weak one keeps everything.

A refinement is given a number of steps, and what is still pending when they are used up is lost. It never comes
to that: a pending segment is worth one step and two more for each known segment that it touches. A cut takes
away a contact and leaves at most two pieces, which lie on the two sides of what was cut out, so that nothing
else touches both of them.
-/

namespace FlowAnalysis

namespace Interval

variable {a b c : Interval} {q : Rat}

/-- Two intervals with a common number leave no gap between them. -/
theorem mem_or_mem_of_mem_join (hshared : ¬ a.Apart b) (h : q ∈ a.join b) : q ∈ a ∨ q ∈ b := by
  obtain ⟨p, hpa, hpb⟩ := not_apart_iff.1 hshared
  obtain ⟨hlower, hupper⟩ := join_bounds a b
  rw [mem_iff, hlower, hupper, min_le_iff, le_max_iff] at h
  rw [mem_iff] at hpa hpb ⊢
  rw [mem_iff]
  rcases le_total (.fin q) (.fin p : Bound) with hle | hle
  · rcases h.1 with hl | hl
    · exact Or.inl ⟨hl, hle.trans hpa.2⟩
    · exact Or.inr ⟨hl, hle.trans hpb.2⟩
  · rcases h.2 with hu | hu
    · exact Or.inl ⟨hpa.1.trans hle, hu⟩
    · exact Or.inr ⟨hpb.1.trans hle, hu⟩

theorem apart_join (hshared : ¬ a.Apart b) (ha : c.Apart a) (hb : c.Apart b) : c.Apart (a.join b) := by
  by_contra hjoin
  obtain ⟨q, hqc, hq⟩ := not_apart_iff.1 hjoin
  rcases mem_or_mem_of_mem_join hshared hq with hq | hq
  · exact not_apart_iff.2 ⟨q, hqc, hq⟩ ha
  · exact not_apart_iff.2 ⟨q, hqc, hq⟩ hb

end Interval

namespace Segment

open Region (OfKind Cut)

variable {key : Region} {s t : Segment} {value : Interval} {pieces : List Region}
  {known others pending pending' known' ss ss' ts ts' : List Segment} {n : Int}

/-! ### Contacts -/

/-- How many pairs of a segment of the first list and one of the second share a key. -/
def contacts (ss ts : List Segment) : Nat := (ss.map fun s => ts.countP (touches s.key)).sum

theorem contacts_cons (s : Segment) (ss ts : List Segment) :
    contacts (s :: ss) ts = ts.countP (touches s.key) + contacts ss ts := by
  rw [contacts, List.map_cons, List.sum_cons, contacts]

theorem contacts_append_left (ss ss' ts : List Segment) :
    contacts (ss ++ ss') ts = contacts ss ts + contacts ss' ts := by
  rw [contacts, List.map_append, List.sum_append, contacts, contacts]

theorem contacts_append_right (ss ts ts' : List Segment) :
    contacts ss (ts ++ ts') = contacts ss ts + contacts ss ts' := by
  induction ss with
  | nil => rfl
  | cons s ss ih =>
      rw [contacts_cons, contacts_cons, contacts_cons, ih, List.countP_append]
      omega

theorem contacts_perm_left (h : ss.Perm ss') (ts : List Segment) : contacts ss ts = contacts ss' ts :=
  (h.map _).sum_eq

theorem contacts_perm_right (ss : List Segment) (h : ts.Perm ts') : contacts ss ts = contacts ss ts' := by
  unfold contacts
  simp only [h.countP_eq]

theorem contacts_perm_cons (ss : List Segment) (h : known.Perm (t :: others)) :
    contacts ss known = contacts ss [t] + contacts ss others := by
  rw [contacts_perm_right ss h, ← List.singleton_append, contacts_append_right]

theorem contacts_le (h : ∀ s ∈ ss, ts.countP (touches s.key) ≤ ts'.countP (touches s.key)) :
    contacts ss ts ≤ contacts ss ts' :=
  List.sum_le_sum h

theorem contacts_eq_zero (hss : ∀ s ∈ ss, s.key.Tight) (hts : ∀ t ∈ ts, t.key.Tight)
    (h : ∀ s ∈ ss, ∀ t ∈ ts, s.key.interval.Apart t.key.interval) : contacts ss ts = 0 := by
  refine List.sum_eq_zero fun count hcount => ?_
  obtain ⟨s, hs, rfl⟩ := List.mem_map.1 hcount
  refine List.countP_eq_zero.2 fun t ht => ?_
  rw [touches_iff (hts t ht) (hss s hs), not_not]
  exact (h s hs t ht).symm

theorem contacts_apart (hs : s.key.Tight) (hss : ∀ t ∈ ss, t.key.Tight)
    (h : ∀ t ∈ ss, s.key.interval.Apart t.key.interval) : contacts ss [s] = 0 := by
  refine contacts_eq_zero hss (List.forall_mem_singleton.2 hs) fun t ht => ?_
  exact List.forall_mem_singleton.2 (h t ht).symm

theorem contacts_singleton (hs : s.key.Tight) (hts : ∀ t ∈ ts, t.key.Tight) :
    contacts ts [s] = ts.countP (touches s.key) := by
  induction ts with
  | nil => rfl
  | cons t ts ih =>
      obtain ⟨ht, hts⟩ := List.forall_mem_cons.1 hts
      rw [contacts_cons, ih hts, List.countP_singleton, List.countP_cons, touches_comm hs ht, Nat.add_comm]

theorem contacts_comm (hss : ∀ s ∈ ss, s.key.Tight) (hts : ∀ t ∈ ts, t.key.Tight) :
    contacts ss ts = contacts ts ss := by
  induction ss with
  | nil => exact (contacts_eq_zero hts hss fun _ _ => List.forall_mem_nil _).symm
  | cons s ss ih =>
      obtain ⟨hs, hss⟩ := List.forall_mem_cons.1 hss
      rw [contacts_cons, ih hss, ← contacts_singleton hs hts, ← contacts_append_right,
        List.singleton_append]

theorem countP_le_one {test : Segment → Bool}
    (h : ss.Pairwise fun s t => test s = false ∨ test t = false) : ss.countP test ≤ 1 := by
  induction ss with
  | nil => exact Nat.zero_le 1
  | cons s ss ih =>
      obtain ⟨hs, hss⟩ := List.pairwise_cons.1 h
      cases htest : test s with
      | true =>
          have hrest : ss.countP test = 0 := List.countP_eq_zero.2 fun t ht =>
            Bool.eq_false_iff.1 ((hs t ht).resolve_left (ne_false_of_eq_true htest))
          rw [List.countP_cons_of_pos htest, hrest]
      | false =>
          rw [List.countP_cons_of_neg (Bool.eq_false_iff.1 htest)]
          exact ih hss

/-- Of the pieces on the two sides of a cut, what does not touch the part that was cut out touches one. -/
theorem countP_spread_le {q : Region} (hq : q.Tight) (ht : t.key.Tight) (hcut : Cut t.key key pieces)
    (happart : q.interval.Apart key.interval) :
    (spread value pieces).countP (touches q) ≤ [t].countP (touches q) := by
  have hpiece : ∀ piece ∈ pieces, touches q ⟨piece, value⟩ = false ↔ piece.interval.Apart q.interval := by
    intro piece hmem
    have htight := (hcut.pieceOf piece hmem).ofKind.tight
    rw [Bool.eq_false_iff, Ne, touches_iff htight hq, not_not]
  rw [List.countP_singleton]
  split
  · refine countP_le_one (List.pairwise_map.2 (hcut.between.imp_of_mem fun hp hp' hbetween => ?_))
    rw [hpiece _ hp, hpiece _ hp']
    exact (hbetween q.interval happart).imp Interval.Apart.symm Interval.Apart.symm
  · rename_i htouch
    rw [touches_iff ht hq, not_not] at htouch
    refine (List.countP_eq_zero.2 fun u hu => ?_).le
    obtain ⟨piece, hmem, rfl⟩ := mem_spread.1 hu
    rw [Bool.not_eq_true, hpiece piece hmem]
    exact htouch.mono (hcut.pieceOf piece hmem).inside (Interval.le_refl _)

theorem contacts_spread_le (hss : ∀ s ∈ ss, s.key.Tight) (ht : t.key.Tight) (hcut : Cut t.key key pieces)
    (happart : ∀ s ∈ ss, s.key.interval.Apart key.interval) :
    contacts ss (spread value pieces) ≤ contacts ss [t] :=
  contacts_le fun s hs => countP_spread_le (hss s hs) ht hcut (happart s hs)

/-- What is merged has no keys but those of the segments that it was made from. -/
theorem countP_join_le {q : Region} (hq : q.Tight) (ht : t.key.Tight) (hs : s.key.Tight)
    (hshared : ¬ t.key.interval.Apart s.key.interval) :
    [t.join s].countP (touches q) ≤ [t].countP (touches q) + [s].countP (touches q) := by
  simp only [List.countP_singleton]
  by_cases hjoin : touches q (t.join s) = true
  · have htouch : touches q t = true ∨ touches q s = true := by
      by_contra hnone
      rw [not_or, touches_iff ht hq, touches_iff hs hq, not_not, not_not] at hnone
      have happart := Interval.apart_join hshared hnone.1.symm hnone.2.symm
      rw [touches_iff (t := t.join s) (ht.join hs) hq, join, ht.join_interval hs] at hjoin
      exact hjoin happart.symm
    rcases htouch with htouch | htouch
    · rw [if_pos hjoin, if_pos htouch]
      exact Nat.le_add_right _ _
    · rw [if_pos hjoin, if_pos htouch]
      exact Nat.le_add_left _ _
  · rw [if_neg hjoin]
    exact Nat.zero_le _

theorem countP_absorb_le {q : Region} (hq : q.Tight) (h : Tidy known) (hs : s.key.Tight) :
    (absorb known s).countP (touches q) ≤ known.countP (touches q) + [s].countP (touches q) := by
  fun_induction absorb known s with
  | case1 known s hbottom => exact Nat.le_add_right _ _
  | case2 known s hbottom hfind => rw [List.countP_append]
  | case3 known s hbottom t hfind ih =>
      have hperm := perm_cons_eraseP hfind
      obtain ⟨ht, -, -, hothers⟩ := tidy_cons.1 (h.perm hperm)
      have hshared := (touches_iff ht hs).1 (List.find?_some hfind)
      have hjoin := countP_join_le hq ht hs hshared
      have hrest := ih hothers (ht.join hs)
      rw [hperm.countP_eq, ← List.singleton_append, List.countP_append]
      omega

theorem contacts_absorb_le (hss : ∀ s ∈ ss, s.key.Tight) (h : Tidy known) (hs : s.key.Tight) :
    contacts ss (absorb known s) ≤ contacts ss known + contacts ss [s] := by
  rw [← contacts_append_right]
  refine contacts_le fun q hq => ?_
  rw [List.countP_append]
  exact countP_absorb_le (hss q hq) h hs

/-- A cut takes away the contact of the two segments and makes no new one. -/
theorem contacts_cut_lt {rest : List Segment} {oldRest newRest : List Region} (h : Tidy (t :: others))
    (hs : s.key.Tight) (htouch : touches s.key t = true) (hold : Cut t.key s.key oldRest)
    (hnew : Cut s.key t.key newRest) (hrest : ∀ q ∈ rest, q.key.Tight)
    (hsapart : ∀ q ∈ rest, s.key.interval.Apart q.key.interval) :
    contacts (spread s.value newRest ++ rest)
        (others ++ spread t.value oldRest ++ [⟨t.key.meet s.key, t.value.join s.value⟩]) <
      contacts (s :: rest) (t :: others) := by
  obtain ⟨ht, -, htapart, hothers⟩ := tidy_cons.1 h
  have hmeet : Region.Tight (t.key.meet s.key) := ht.meet hs
  have htightnew : ∀ u ∈ spread s.value newRest, u.key.Tight := fun u hu => by
    obtain ⟨piece, hpiece, rfl⟩ := mem_spread.1 hu
    exact (hnew.pieceOf piece hpiece).ofKind.tight
  have htightold : ∀ u ∈ spread t.value oldRest, u.key.Tight := fun u hu => by
    obtain ⟨piece, hpiece, rfl⟩ := mem_spread.1 hu
    exact (hold.pieceOf piece hpiece).ofKind.tight
  have houtside : ∀ u ∈ spread s.value newRest, u.key.interval.Apart t.key.interval := fun u hu => by
    obtain ⟨piece, hpiece, rfl⟩ := mem_spread.1 hu
    exact (hnew.pieceOf piece hpiece).apart
  -- The new pieces touch neither part of the known segment, and any other segment at most once.
  have hnewothers : contacts (spread s.value newRest) others ≤ contacts [s] others := by
    rw [contacts_comm htightnew hothers.tight,
      contacts_comm (List.forall_mem_singleton.2 hs) hothers.tight]
    exact contacts_spread_le hothers.tight hs hnew fun u hu => (htapart u hu).symm
  have hnewold : contacts (spread s.value newRest) (spread t.value oldRest) = 0 := by
    refine contacts_eq_zero htightnew htightold fun u hu v hv => ?_
    obtain ⟨piece, hpiece, rfl⟩ := mem_spread.1 hv
    exact (houtside u hu).mono (Interval.le_refl _) (hold.pieceOf piece hpiece).inside
  have hnewshared : contacts (spread s.value newRest)
      [⟨t.key.meet s.key, t.value.join s.value⟩] = 0 := by
    refine contacts_eq_zero htightnew (List.forall_mem_singleton.2 hmeet) fun u hu => ?_
    refine List.forall_mem_singleton.2 ((houtside u hu).mono (Interval.le_refl _) ?_)
    rw [ht.meet_interval hs]
    exact Interval.meet_le_left _ _
  -- What is pending is apart from the cut, so it touches one of the old pieces at most.
  have hrestold : contacts rest (spread t.value oldRest) ≤ contacts rest [t] :=
    contacts_spread_le hrest ht hold fun q hq => (hsapart q hq).symm
  have hrestshared : contacts rest [⟨t.key.meet s.key, t.value.join s.value⟩] = 0 := by
    refine contacts_eq_zero hrest (List.forall_mem_singleton.2 hmeet) fun q hq => ?_
    refine List.forall_mem_singleton.2 ((hsapart q hq).symm.mono (Interval.le_refl _) ?_)
    rw [ht.meet_interval hs]
    exact Interval.meet_le_right _ _
  have hcontact : contacts [s] [t] = 1 := by
    rw [contacts_cons, List.countP_singleton, if_pos htouch]
    rfl
  have hsplit : contacts (s :: rest) (t :: others) =
      contacts [s] [t] + contacts [s] others + (contacts rest [t] + contacts rest others) := by
    rw [← List.singleton_append, contacts_append_left, contacts_perm_cons [s] (.refl _),
      contacts_perm_cons rest (.refl _)]
  rw [hsplit, hcontact]
  simp only [contacts_append_left, contacts_append_right]
  omega

/-! ### Steps of a refinement -/

/-- The steps that are left: each pending segment takes one, and two more for each known segment that it
touches. -/
def load (pending known : List Segment) : Nat := 2 * contacts pending known + pending.length

theorem RefineStep.load_lt (hstep : RefineStep pending known pending' known')
    (h : Refinable pending known) : load pending' known' < load pending known := by
  obtain ⟨htidy, htight, happart⟩ := h
  unfold load
  cases hstep with
  | @empty s _ _ hbottom =>
      rw [contacts_cons, List.length_cons]
      omega
  | @fresh s _ _ hproper hfind =>
      obtain ⟨hs, htight⟩ := List.forall_mem_cons.1 htight
      have hnone := contacts_apart hs htight (List.pairwise_cons.1 happart).1
      rw [contacts_append_right, hnone, contacts_cons, List.length_cons]
      omega
  | @joined s t _ _ others hproper hperm hkey =>
      have hsame : contacts pending' [⟨t.key, t.value.join s.value⟩] = contacts pending' [t] := rfl
      rw [contacts_append_right, hsame, contacts_cons, contacts_perm_cons pending' hperm, List.length_cons]
      omega
  | @cut s t rest _ others oldRest newRest hproper hperm htouch hold hnew =>
      obtain ⟨hs, hrest⟩ := List.forall_mem_cons.1 htight
      obtain ⟨hsapart, -⟩ := List.pairwise_cons.1 happart
      have hcons := htidy.perm hperm
      obtain ⟨ht, htproper, htapart, hothers⟩ := tidy_cons.1 hcons
      obtain ⟨hold, hnew⟩ := cut_of_without? ht hs htproper hproper hold hnew
      have hcut := contacts_cut_lt hcons hs htouch hold hnew hrest hsapart
      have hlength : (spread s.value newRest).reverse.length ≤ 2 := by
        rw [List.length_reverse, spread, List.length_map]
        exact hnew.length_le
      rw [contacts_perm_left ((List.reverse_perm _).append_right rest), contacts_perm_right _ hperm,
        List.length_append, List.length_cons]
      omega
  | @merged s t _ _ others hproper hperm =>
      obtain ⟨hs, htight⟩ := List.forall_mem_cons.1 htight
      have hnone := contacts_apart hs htight (List.pairwise_cons.1 happart).1
      have hsame := hperm.trans (List.perm_append_singleton _ _).symm
      have hmerged := contacts_absorb_le htight (htidy.perm hsame) hs
      rw [← contacts_perm_right pending' hsame, hnone] at hmerged
      rw [contacts_cons, List.length_cons]
      omega

/-! ### What segments cover -/

/-- Some segment holds all of `value` under the key `n`. -/
def Covers (ss : List Segment) (n : Int) (value : Interval) : Prop :=
  ∃ s ∈ ss, (n : Rat) ∈ s.key.interval ∧ value.le s.value = true

theorem Covers.subset (h : Covers ss n value) (hsubset : ss ⊆ ts) : Covers ts n value := by
  obtain ⟨s, hs, hkey, hvalue⟩ := h
  exact ⟨s, hsubset hs, hkey, hvalue⟩

theorem Covers.within (h : Covers ss n value) (hwithin : Within ss ts) : Covers ts n value := by
  obtain ⟨s, hs, hkey, hvalue⟩ := h
  obtain ⟨t, ht, hle⟩ := hwithin s hs
  rw [le_iff] at hle
  exact ⟨t, ht, Interval.mem_of_le hle.1 hkey, Interval.le_trans hvalue hle.2⟩

theorem covers_append : Covers (ss ++ ts) n value ↔ Covers ss n value ∨ Covers ts n value := by
  simp only [Covers, List.mem_append, or_and_right, exists_or]

theorem covers_cons : Covers (s :: ss) n value ↔
    (n : Rat) ∈ s.key.interval ∧ value.le s.value = true ∨ Covers ss n value := by
  simp only [Covers, List.mem_cons, or_and_right, exists_or, exists_eq_left]

theorem covers_singleton : Covers [s] n value ↔
    (n : Rat) ∈ s.key.interval ∧ value.le s.value = true := by
  simp only [Covers, List.mem_singleton, exists_eq_left]

theorem covers_perm (h : ss.Perm ts) : Covers ss n value ↔ Covers ts n value :=
  ⟨fun hcovers => hcovers.subset h.subset, fun hcovers => hcovers.subset h.symm.subset⟩

/-- Merging covers what the segments did. -/
theorem Tidy.covers_absorb (h : Tidy known) (hs : s.key.Tight) (hproper : s.isBottom = false)
    (hcovers : Covers (s :: known) n value) : Covers (Segment.absorb known s) n value := by
  obtain ⟨hknown, hsegment⟩ := h.within_absorb hs
  exact hcovers.within (List.forall_mem_cons.2 ⟨hsegment hproper, hknown⟩)

/-- The pieces of a segment and what was cut out of it cover what it covered. -/
theorem covers_spread (hcut : Cut s.key key pieces) (hkey : (n : Rat) ∈ s.key.interval)
    (hout : ¬ (n : Rat) ∈ key.interval) (hvalue : value.le s.value = true) :
    Covers (spread s.value pieces) n value := by
  obtain ⟨piece, hpiece, hmem⟩ := hcut.covers n hkey hout
  exact ⟨⟨piece, s.value⟩, mem_spread.2 ⟨piece, hpiece, rfl⟩, hmem, hvalue⟩

theorem RefineStep.covers (hstep : RefineStep pending known pending' known')
    (h : Refinable pending known) (hvalue : value.isBottom = false)
    (hcovers : Covers (pending ++ known) n value) : Covers (pending' ++ known') n value := by
  obtain ⟨htidy, htight, -⟩ := h
  cases hstep with
  | @empty s _ _ hbottom =>
      rw [List.cons_append, covers_cons] at hcovers
      refine hcovers.resolve_left fun ⟨hkey, hle⟩ => ?_
      have hproper := isBottom_eq_false_iff.2
        ⟨Interval.isBottom_eq_false_of_mem hkey, Interval.isBottom_eq_false_of_le hle hvalue⟩
      rw [hproper] at hbottom
      cases hbottom
  | @fresh s _ _ hproper hfind =>
      rw [← List.append_assoc]
      exact (covers_perm (List.perm_append_singleton _ _).symm).1 hcovers
  | @joined s t _ _ others hproper hperm hkey =>
      rw [covers_append, covers_cons, covers_perm hperm, covers_cons] at hcovers
      rw [covers_append, covers_append, covers_singleton]
      rcases hcovers with (⟨hmem, hle⟩ | hpending) | ⟨hmem, hle⟩ | hothers
      · exact Or.inr (Or.inr ⟨hkey ▸ hmem, Interval.le_trans hle (Interval.le_join_right _ _)⟩)
      · exact Or.inl hpending
      · exact Or.inr (Or.inr ⟨hmem, Interval.le_trans hle (Interval.le_join_left _ _)⟩)
      · exact Or.inr (Or.inl hothers)
  | @cut s t rest _ others oldRest newRest hproper hperm htouch hold hnew =>
      obtain ⟨hs, -⟩ := List.forall_mem_cons.1 htight
      obtain ⟨ht, htproper, -, -⟩ := tidy_cons.1 (htidy.perm hperm)
      obtain ⟨hold, hnew⟩ := cut_of_without? ht hs htproper hproper hold hnew
      have hshared : (n : Rat) ∈ t.key.interval → (n : Rat) ∈ s.key.interval →
          (n : Rat) ∈ (t.key.meet s.key).interval := fun hmem hmem' => by
        rw [ht.meet_interval hs]
        exact Interval.mem_meet.2 ⟨hmem, hmem'⟩
      rw [covers_append, covers_cons, covers_perm hperm, covers_cons] at hcovers
      rw [covers_append, covers_append, covers_append, covers_append, covers_singleton,
        covers_perm (List.reverse_perm _)]
      rcases hcovers with (⟨hmem, hle⟩ | hpending) | ⟨hmem, hle⟩ | hothers
      · by_cases hin : (n : Rat) ∈ t.key.interval
        · exact Or.inr (Or.inr ⟨hshared hin hmem, Interval.le_trans hle (Interval.le_join_right _ _)⟩)
        · exact Or.inl (Or.inl (covers_spread hnew hmem hin hle))
      · exact Or.inl (Or.inr hpending)
      · by_cases hin : (n : Rat) ∈ s.key.interval
        · exact Or.inr (Or.inr ⟨hshared hmem hin, Interval.le_trans hle (Interval.le_join_left _ _)⟩)
        · exact Or.inr (Or.inl (Or.inr (covers_spread hold hmem hin hle)))
      · exact Or.inr (Or.inl (Or.inl hothers))
  | @merged s t _ _ others hproper hperm =>
      have hsame := hperm.trans (List.perm_append_singleton _ _).symm
      have hmerged : Covers (s :: (others ++ [t])) n value →
          Covers (Segment.absorb (others ++ [t]) s) n value :=
        (htidy.perm hsame).covers_absorb (List.forall_mem_cons.1 htight).1 hproper
      rw [covers_cons, ← covers_perm hsame] at hmerged
      rw [covers_append, covers_cons] at hcovers
      rw [covers_append]
      tauto

/-- With steps enough for its load nothing is pending in the end, and what every step preserves holds then. -/
theorem refineWith_ends {P : List Segment → List Segment → Prop}
    (hpreserved : ∀ {pending known pending' known' : List Segment},
      RefineStep pending known pending' known' → Refinable pending known → P pending known → P pending' known')
    {fuel : Nat} (h : Refinable pending known) (hload : load pending known ≤ fuel) (hP : P pending known) :
    P [] (refineWith fuel pending known) := by
  induction fuel generalizing pending known with
  | zero =>
      have hnil : pending = [] := by
        unfold load at hload
        exact List.length_eq_zero_iff.1 (by omega)
      subst hnil
      rwa [refineWith]
  | succ fuel ih =>
      cases pending with
      | nil => rwa [refineWith_nil]
      | cons s pending =>
          obtain ⟨left, known', hstep, heq⟩ := refineWith_step s known
          have hless := (hstep pending).load_lt h
          rw [heq]
          exact ih (h.step (hstep pending)) (by omega) (hpreserved (hstep pending) h hP)

theorem load_singleton_le (s : Segment) (known : List Segment) : load [s] known ≤ 2 * known.length + 1 := by
  have hcount : known.countP (touches s.key) ≤ known.length := List.countP_le_length
  rw [load, contacts_cons, List.length_singleton]
  change 2 * (_ + 0) + 1 ≤ _
  omega

/-- Joining a segment into others loses nothing. -/
theorem Tidy.covers_refine (h : Tidy known) (hs : s.key.Tight) (hvalue : value.isBottom = false)
    (hcovers : Covers (s :: known) n value) : Covers (Segment.refine known s) n value :=
  refineWith_ends (P := fun pending known => Covers (pending ++ known) n value)
    (fun hstep hrefinable => hstep.covers hrefinable hvalue) (refinable_singleton h hs)
    (load_singleton_le s known) hcovers

end Segment

namespace SegmentMap

open Region (OfKind)
open Segment (Tidy Covers)

variable {m : SegmentMap} {key : Region} {value : Interval} {ss : List Segment} {n : Int} {a : Interval}

theorem withSegments_eq (h : Tidy ss) : m.withSegments ss = .ok ⟨m.integral, some ss⟩ := by
  rw [withSegments, if_pos h.disjoint]
  rfl

theorem insert_of_isBottom (hm : m.segments = some ss) (h : Tidy ss)
    (hbottom : Segment.isBottom ⟨key, value⟩ = true) : m.insert key value = .ok ⟨m.integral, some ss⟩ := by
  rw [insert, hm]
  dsimp only
  rw [Segment.absorb, if_pos hbottom]
  exact withSegments_eq h

theorem overwrite_of_isBottom (hm : m.segments = some ss)
    (hbottom : Segment.isBottom ⟨key, value⟩ = true) : m.overwrite key value = .ok ⟨m.integral, some ss⟩ := by
  have hempty : (key.isBottom || value.isBottom) = true := hbottom
  rw [overwrite, hm]
  dsimp only
  rw [if_pos hempty, ← hm]
  rfl

/-- What an update of some keys leaves: segments that hold `value` under each of them, and under every key that
is `kept` what was held there. -/
structure Updated (ss : List Segment) (key : Region) (value : Interval) (kept : Int → Prop)
    (ss' : List Segment) : Prop where
  tidy : Tidy ss'
  holds : ∀ n : Int, (n : Rat) ∈ key.interval → Covers ss' n value
  keeps : ∀ (n : Int) (a : Interval), kept n → a.isBottom = false → Covers ss n a → Covers ss' n a

section Updates

variable (hm : m.segments = some ss) (h : Tidy ss) (hkey : key.OfKind true)
  (hproper : Segment.isBottom ⟨key, value⟩ = false)

include hm h hkey hproper

theorem exists_insert : ∃ ss', m.insert key value = .ok ⟨m.integral, some ss'⟩ ∧
    Updated ss key value (fun _ => True) ss' := by
  have htidy : Tidy (Segment.absorb ss ⟨key, value⟩) := h.absorb hkey.tight
  refine ⟨_, ?_, htidy, fun n hn => ?_, fun n a _ _ hcovers => ?_⟩
  · rw [insert, hm]
    exact withSegments_eq htidy
  · exact h.covers_absorb hkey.tight hproper (Segment.covers_cons.2 (Or.inl ⟨hn, Interval.le_refl _⟩))
  · exact h.covers_absorb hkey.tight hproper (Segment.covers_cons.2 (Or.inr hcovers))

theorem exists_overwrite : ∃ ss', m.overwrite key value = .ok ⟨m.integral, some ss'⟩ ∧
    Updated ss key value (fun n => ¬ (n : Rat) ∈ key.interval) ss' := by
  have hbottom : (key.isBottom || value.isBottom) = false := hproper
  rw [overwrite, hm]
  dsimp only
  rw [if_neg (Bool.eq_false_iff.1 hbottom)]
  split
  · rename_i kept hkept
    have hkind : ∀ s ∈ ss, s.key.integral = true → key.integral = true := fun _ _ _ => hkey.integral_eq
    obtain ⟨hleft, hsource⟩ := h.outside?_spec hkey.tight hkind hkept
    have htidy : Tidy (kept ++ [⟨key, value⟩]) := by
      refine (h.outside? hkey.tight hkind hkept).concat hkey.tight hproper fun u hu => ?_
      obtain ⟨_, _, rest, hu, hrest⟩ := hsource u hu
      exact hrest.apart u hu
    refine ⟨_, withSegments_eq htidy, htidy, fun n hn => ?_, fun n a hout _ hcovers => ?_⟩
    · exact Segment.covers_append.2 (Or.inr (Segment.covers_singleton.2 ⟨hn, Interval.le_refl _⟩))
    · obtain ⟨s, hs, hmem, hle⟩ := hcovers
      obtain ⟨rest, hsubset, hrest⟩ := hleft s hs
      obtain ⟨u, hu, hmem, hvalue⟩ := hrest.covers n hmem hout
      exact Segment.covers_append.2 (Or.inl ⟨u, hsubset hu, hmem, hvalue ▸ hle⟩)
  · obtain ⟨ss', hinsert, htidy, hholds, hkeeps⟩ := exists_insert hm h hkey hproper
    exact ⟨ss', hinsert, htidy, hholds, fun n a _ => hkeeps n a trivial⟩

theorem exists_update : ∃ ss', m.update [⟨key, value⟩] = .ok ⟨m.integral, some ss'⟩ ∧
    Updated ss key value (fun _ => True) ss' := by
  have htidy : Tidy (Segment.refine ss ⟨key, value⟩) := h.refine hkey.tight
  refine ⟨_, ?_, htidy, fun n hn => ?_, fun n a _ ha hcovers => ?_⟩
  · rw [update, hm]
    exact withSegments_eq htidy
  · exact h.covers_refine hkey.tight (Segment.isBottom_eq_false_iff.1 hproper).2
      (Segment.covers_cons.2 (Or.inl ⟨hn, Interval.le_refl _⟩))
  · exact h.covers_refine hkey.tight ha (Segment.covers_cons.2 (Or.inr hcovers))

end Updates

/-- Reading a region finds what is covered under its keys. -/
theorem le_valuesAt (h : Tidy m.toList) (hkey : key.Tight) (hn : (n : Rat) ∈ key.interval)
    (hcovers : Covers m.toList n a) : a.le (m.valuesAt key) = true := by
  obtain ⟨s, hs, hmem, hle⟩ := hcovers
  have htouch : Segment.touches key s = true :=
    (Segment.touches_iff (h.tight s hs) hkey).2 (Interval.not_apart_iff.2 ⟨n, hmem, hn⟩)
  exact Interval.le_trans hle
    (Interval.le_joinAll (List.mem_map_of_mem (List.mem_filter.2 ⟨hs, htouch⟩)))

end SegmentMap

end FlowAnalysis
