import FlowAnalysis.Proofs.Segment.Region
import FlowAnalysis.Segment.Map

/-!
Partitions: lists of segments of which none is empty and no two share a key. Everything that is done to
the segments of a map makes a partition from a partition, whatever segments are added and however they
overlap. What is cut out of a segment stays inside it, so it stays apart from all the others. Keys of both
kinds may stand side by side; operations on keys of one kind make keys of that kind.
-/

namespace FlowAnalysis.Segment

open Region (OfKind Cut)

variable {k : Bool} {key : Region} {s t u : Segment} {known others pending ss ts : List Segment}

theorem isBottom_eq_false_iff :
    s.isBottom = false ↔ s.key.isBottom = false ∧ s.value.isBottom = false := by
  rw [isBottom, Bool.or_eq_false_iff]

theorem touches_iff (ht : t.key.Tight) (hkey : key.Tight) :
    touches key t = true ↔ ¬ t.key.interval.Apart key.interval :=
  ht.overlaps_iff hkey

theorem touches_comm (ht : t.key.Tight) (hs : s.key.Tight) : touches s.key t = touches t.key s := by
  rw [Bool.eq_iff_iff, touches_iff ht hs, touches_iff hs ht, not_iff_not]
  exact ⟨Interval.Apart.symm, Interval.Apart.symm⟩

/-! ### Tidy segments -/

/-- Segments that are not empty and share no key. -/
structure Tidy (ss : List Segment) : Prop where
  tight : ∀ s ∈ ss, s.key.Tight
  proper : ∀ s ∈ ss, s.isBottom = false
  apart : ss.Pairwise fun s t => s.key.interval.Apart t.key.interval

theorem Tidy.nil : Tidy [] := ⟨List.forall_mem_nil _, List.forall_mem_nil _, .nil⟩

theorem tidy_cons : Tidy (s :: ss) ↔
    s.key.Tight ∧ s.isBottom = false ∧ (∀ t ∈ ss, s.key.interval.Apart t.key.interval) ∧ Tidy ss := by
  constructor
  · intro h
    obtain ⟨htight, htights⟩ := List.forall_mem_cons.1 h.tight
    obtain ⟨hproper, hpropers⟩ := List.forall_mem_cons.1 h.proper
    obtain ⟨happart, hrest⟩ := List.pairwise_cons.1 h.apart
    exact ⟨htight, hproper, happart, htights, hpropers, hrest⟩
  · rintro ⟨htight, hproper, happart, hrest⟩
    exact ⟨List.forall_mem_cons.2 ⟨htight, hrest.tight⟩, List.forall_mem_cons.2 ⟨hproper, hrest.proper⟩,
      List.pairwise_cons.2 ⟨happart, hrest.apart⟩⟩

theorem Tidy.append (hss : Tidy ss) (hts : Tidy ts)
    (h : ∀ s ∈ ss, ∀ t ∈ ts, s.key.interval.Apart t.key.interval) : Tidy (ss ++ ts) where
  tight s hs := (List.mem_append.1 hs).elim (hss.tight s) (hts.tight s)
  proper s hs := (List.mem_append.1 hs).elim (hss.proper s) (hts.proper s)
  apart := List.pairwise_append.2 ⟨hss.apart, hts.apart, h⟩

theorem Tidy.concat (h : Tidy known) (hs : s.key.Tight) (hproper : s.isBottom = false)
    (happart : ∀ u ∈ known, u.key.interval.Apart s.key.interval) : Tidy (known ++ [s]) := by
  refine h.append (tidy_cons.2 ⟨hs, hproper, List.forall_mem_nil _, .nil⟩) fun u hu t ht => ?_
  obtain rfl := List.mem_singleton.1 ht
  exact happart u hu

theorem Tidy.perm (h : Tidy ss) (hperm : ss.Perm ts) : Tidy ts where
  tight t ht := h.tight t (hperm.mem_iff.2 ht)
  proper t ht := h.proper t (hperm.mem_iff.2 ht)
  apart := (hperm.pairwise_iff fun happart => happart.symm).1 h.apart

/-- What the check of a map asks for. -/
theorem Tidy.disjoint (h : Tidy ss) : disjoint ss = true := by
  induction ss with
  | nil => rfl
  | cons s ss ih =>
      obtain ⟨hs, hproper, happart, hss⟩ := tidy_cons.1 h
      have htouch : (ss.all fun t => !s.key.overlaps t.key) = true := by
        rw [List.all_eq_true]
        intro t ht
        rw [Bool.not_eq_true', Bool.eq_false_iff, Ne, hs.overlaps_iff (hss.tight t ht), not_not]
        exact happart t ht
      rw [Segment.disjoint, hproper, htouch, ih hss]
      rfl

/-- Taking out the first segment that a test finds puts it in front. -/
theorem perm_cons_eraseP {test : Segment → Bool} (hfind : known.find? test = some t) :
    known.Perm (t :: known.eraseP test) := by
  obtain ⟨htest, before, after, rfl, hbefore⟩ := List.find?_eq_some_iff_append.1 hfind
  rw [List.eraseP_append_right _ (by simpa using hbefore), List.eraseP_cons_of_pos htest]
  exact List.perm_middle

theorem Tidy.apart_of_find?_eq_none (h : Tidy known) (hkey : key.Tight)
    (hfind : known.find? (touches key) = none) : ∀ u ∈ known, u.key.interval.Apart key.interval := by
  intro u hu
  have htouch := List.find?_eq_none.1 hfind u hu
  rwa [touches_iff (h.tight u hu) hkey, not_not] at htouch

/-! ### Merging -/

theorem Tidy.absorb (h : Tidy known) (hs : s.key.Tight) : Tidy (absorb known s) := by
  fun_induction Segment.absorb known s with
  | case1 known s hbottom => exact h
  | case2 known s hbottom hfind =>
      exact h.concat hs (Bool.eq_false_iff.2 hbottom) (h.apart_of_find?_eq_none hs hfind)
  | case3 known s hbottom t hfind ih =>
      obtain ⟨ht, -, -, hothers⟩ := tidy_cons.1 (h.perm (perm_cons_eraseP hfind))
      exact ih hothers (ht.join hs)

theorem absorb_ofKind (h : ∀ t ∈ known, t.key.OfKind k) (hs : s.key.OfKind k) :
    ∀ t ∈ absorb known s, t.key.OfKind k := by
  fun_induction Segment.absorb known s with
  | case1 known s hbottom => exact h
  | case2 known s hbottom hfind => exact List.forall_mem_append.2 ⟨h, List.forall_mem_singleton.2 hs⟩
  | case3 known s hbottom t hfind ih =>
      have ht := h t (List.mem_of_find?_eq_some hfind)
      exact ih (fun u hu => h u (List.mem_of_mem_eraseP hu)) (ht.join hs)

/-! ### Cutting -/

theorem mem_spread {value : Interval} {pieces : List Region} :
    s ∈ spread value pieces ↔ ∃ piece ∈ pieces, (⟨piece, value⟩ : Segment) = s :=
  List.mem_map

/-- The pieces of a region are tidy, with any value that is not empty. -/
theorem Tidy.spread {r : Region} {pieces : List Region} {value : Interval} (h : Cut r key pieces)
    (hvalue : value.isBottom = false) : Tidy (spread value pieces) where
  tight s hs := by
    obtain ⟨piece, hpiece, rfl⟩ := mem_spread.1 hs
    exact (h.pieceOf piece hpiece).ofKind.tight
  proper s hs := by
    obtain ⟨piece, hpiece, rfl⟩ := mem_spread.1 hs
    exact isBottom_eq_false_iff.2 ⟨(h.pieceOf piece hpiece).proper, hvalue⟩
  apart := List.pairwise_map.2 h.apart

/-- What is left of one segment outside a region. -/
structure Remainder (key : Region) (s : Segment) (rest : List Segment) : Prop where
  tidy : Tidy rest
  apart : ∀ u ∈ rest, u.key.interval.Apart key.interval
  inside : ∀ u ∈ rest, u.key.interval.le s.key.interval = true
  ofKind : ∀ k, s.key.OfKind k → ∀ u ∈ rest, u.key.OfKind k
  covers : ∀ n : Int, (n : Rat) ∈ s.key.interval → ¬ (n : Rat) ∈ key.interval →
    ∃ u ∈ rest, (n : Rat) ∈ u.key.interval ∧ u.value = s.value

theorem remainder_self (hs : s.key.Tight) (hproper : s.isBottom = false)
    (happart : s.key.interval.Apart key.interval) : Remainder key s [s] where
  tidy := tidy_cons.2 ⟨hs, hproper, List.forall_mem_nil _, .nil⟩
  apart := List.forall_mem_singleton.2 happart
  inside := List.forall_mem_singleton.2 (Interval.le_refl _)
  ofKind _ hkind := List.forall_mem_singleton.2 hkind
  covers _ hn _ := ⟨s, List.mem_singleton_self s, hn, rfl⟩

theorem remainder_spread {pieces : List Region} (hs : s.key.OfKind true) (hproper : s.isBottom = false)
    (h : Cut s.key key pieces) : Remainder key s (spread s.value pieces) where
  tidy := .spread h (isBottom_eq_false_iff.1 hproper).2
  apart u hu := by
    obtain ⟨piece, hpiece, rfl⟩ := mem_spread.1 hu
    exact (h.pieceOf piece hpiece).apart
  inside u hu := by
    obtain ⟨piece, hpiece, rfl⟩ := mem_spread.1 hu
    exact (h.pieceOf piece hpiece).inside
  ofKind k hkind u hu := by
    obtain ⟨piece, hpiece, rfl⟩ := mem_spread.1 hu
    obtain rfl : k = true := hkind.integral_eq.symm.trans hs.integral_eq
    exact (h.pieceOf piece hpiece).ofKind
  covers n hn hout := by
    obtain ⟨piece, hpiece, hmem⟩ := h.covers n hn hout
    exact ⟨⟨piece, s.value⟩, mem_spread.2 ⟨piece, hpiece, rfl⟩, hmem, rfl⟩

/-- Nothing is cut where each segment that is touched is left as it is. -/
theorem outside?_eq_some_self (h : ∀ s ∈ ss, touches key s = true → s.key.without? key = some [s.key]) :
    outside? key ss = some ss := by
  induction ss with
  | nil => rfl
  | cons s ss ih =>
      obtain ⟨hs, hss⟩ := List.forall_mem_cons.1 h
      rw [outside?, ih hss]
      by_cases htouch : touches key s = true
      · rw [if_pos htouch, hs htouch]
        rfl
      · rw [if_neg htouch]
        rfl

/-- Cutting treats one segment after the other. A region of arbitrary numbers cuts no whole numbers. -/
theorem exists_outside?_cons {kept : List Segment} (hs : s.key.Tight) (hproper : s.isBottom = false)
    (hkey : key.Tight) (hkind : s.key.integral = true → key.integral = true)
    (h : outside? key (s :: ss) = some kept) :
    ∃ rest others, kept = rest ++ others ∧ outside? key ss = some others ∧ Remainder key s rest := by
  rw [outside?] at h
  split at h
  · obtain ⟨pieces, hpieces, h⟩ := Option.bind_eq_some_iff.1 h
    obtain ⟨others, hothers, h⟩ := Option.bind_eq_some_iff.1 h
    obtain rfl := Option.some.inj h
    have hintegral := Region.integral_of_without? hpieces
    have hcut := Region.without?_cut (hs.ofKind hintegral) (hkey.ofKind (hkind hintegral))
      (isBottom_eq_false_iff.1 hproper).1 hpieces
    exact ⟨_, others, rfl, hothers, remainder_spread (hs.ofKind hintegral) hproper hcut⟩
  · rename_i htouch
    obtain ⟨others, hothers, h⟩ := Option.bind_eq_some_iff.1 h
    obtain rfl := Option.some.inj h
    rw [touches_iff hs hkey, not_not] at htouch
    exact ⟨[s], others, rfl, hothers, remainder_self hs hproper htouch⟩

/-- Cutting a region out of segments: what is left of each of them, and nothing else. -/
theorem Tidy.outside?_spec {kept : List Segment} (h : Tidy ss) (hkey : key.Tight)
    (hkind : ∀ s ∈ ss, s.key.integral = true → key.integral = true) (hkept : outside? key ss = some kept) :
    (∀ s ∈ ss, ∃ rest, rest ⊆ kept ∧ Remainder key s rest) ∧
      ∀ u ∈ kept, ∃ s ∈ ss, ∃ rest, u ∈ rest ∧ Remainder key s rest := by
  induction ss generalizing kept with
  | nil =>
      obtain rfl := Option.some.inj hkept
      exact ⟨List.forall_mem_nil _, List.forall_mem_nil _⟩
  | cons s ss ih =>
      obtain ⟨hs, hproper, -, hss⟩ := tidy_cons.1 h
      obtain ⟨hskind, hkind⟩ := List.forall_mem_cons.1 hkind
      obtain ⟨rest, others, rfl, hothers, hrest⟩ := exists_outside?_cons hs hproper hkey hskind hkept
      obtain ⟨hleft, hsource⟩ := ih hss hkind hothers
      constructor
      · refine List.forall_mem_cons.2 ⟨⟨rest, List.subset_append_left _ _, hrest⟩, fun t ht => ?_⟩
        obtain ⟨rest', hsubset, hrest'⟩ := hleft t ht
        exact ⟨rest', List.subset_append_of_subset_right _ hsubset, hrest'⟩
      · refine List.forall_mem_append.2 ⟨fun u hu => ⟨s, List.mem_cons_self, rest, hu, hrest⟩, ?_⟩
        intro u hu
        obtain ⟨t, ht, rest', hu', hrest'⟩ := hsource u hu
        exact ⟨t, List.mem_cons_of_mem s ht, rest', hu', hrest'⟩

theorem Tidy.outside? {kept : List Segment} (h : Tidy ss) (hkey : key.Tight)
    (hkind : ∀ s ∈ ss, s.key.integral = true → key.integral = true)
    (hkept : outside? key ss = some kept) : Tidy kept := by
  induction ss generalizing kept with
  | nil =>
      obtain rfl := Option.some.inj hkept
      exact .nil
  | cons s ss ih =>
      obtain ⟨hs, hproper, hsapart, hss⟩ := tidy_cons.1 h
      obtain ⟨hskind, hkind⟩ := List.forall_mem_cons.1 hkind
      obtain ⟨rest, others, rfl, hothers, hrest⟩ := exists_outside?_cons hs hproper hkey hskind hkept
      refine hrest.tidy.append (ih hss hkind hothers) fun u hu v hv => ?_
      obtain ⟨t, ht, rest', hv, hrest'⟩ := (hss.outside?_spec hkey hkind hothers).2 v hv
      exact (hsapart t ht).mono (hrest.inside u hu) (hrest'.inside v hv)

/-! ### Refining -/

/-- What one step of a refinement does with the first pending segment. -/
inductive RefineStep : List Segment → List Segment → List Segment → List Segment → Prop where
  | empty {s : Segment} {pending known : List Segment} (hbottom : s.isBottom = true) :
      RefineStep (s :: pending) known pending known
  | fresh {s : Segment} {pending known : List Segment} (hproper : s.isBottom = false)
      (hfind : known.find? (touches s.key) = none) :
      RefineStep (s :: pending) known pending (known ++ [s])
  | joined {s t : Segment} {pending known others : List Segment} (hproper : s.isBottom = false)
      (hperm : known.Perm (t :: others)) (hkey : t.key = s.key) :
      RefineStep (s :: pending) known pending (others ++ [⟨t.key, t.value.join s.value⟩])
  | cut {s t : Segment} {pending known others : List Segment} {oldRest newRest : List Region}
      (hproper : s.isBottom = false) (hperm : known.Perm (t :: others))
      (htouch : touches s.key t = true) (hold : t.key.without? s.key = some oldRest)
      (hnew : s.key.without? t.key = some newRest) :
      RefineStep (s :: pending) known ((spread s.value newRest).reverse ++ pending)
        (others ++ spread t.value oldRest ++ [⟨t.key.meet s.key, t.value.join s.value⟩])
  | merged {s t : Segment} {pending known others : List Segment} (hproper : s.isBottom = false)
      (hperm : known.Perm (t :: others)) (htouch : touches s.key t = true)
      (huncut : t.key.without? s.key = none ∨ s.key.without? t.key = none) :
      RefineStep (s :: pending) known pending (absorb (others ++ [t]) s)

/-- A refinement takes steps until nothing is pending or no step is left. What a step leaves of the first
pending segment does not depend on those behind it. -/
theorem refineWith_step (s : Segment) (known : List Segment) :
    ∃ left known', (∀ pending, RefineStep (s :: pending) known (left ++ pending) known') ∧
      ∀ fuel pending, refineWith (fuel + 1) (s :: pending) known = refineWith fuel (left ++ pending) known' := by
  simp only [refineWith]
  split
  · rename_i hbottom
    exact ⟨[], _, fun _ => .empty hbottom, fun _ _ => rfl⟩
  · rename_i hbottom
    have hproper := Bool.eq_false_iff.2 hbottom
    split
    · rename_i hfind
      exact ⟨[], _, fun _ => .fresh hproper hfind, fun _ _ => rfl⟩
    · rename_i t hfind
      have hperm := perm_cons_eraseP hfind
      have htouch : touches s.key t = true := List.find?_some hfind
      split
      · rename_i hkey
        exact ⟨[], _, fun _ => .joined hproper hperm hkey, fun _ _ => rfl⟩
      · split
        · rename_i oldRest newRest hold hnew
          exact ⟨_, _, fun _ => .cut hproper hperm htouch hold hnew, fun _ _ => rfl⟩
        · rename_i hcut
          refine ⟨[], _, fun _ => .merged hproper hperm htouch ?_, fun _ _ => rfl⟩
          by_contra hboth
          obtain ⟨hold, hnew⟩ := not_or.1 hboth
          obtain ⟨oldRest, hold⟩ := Option.ne_none_iff_exists'.1 hold
          obtain ⟨newRest, hnew⟩ := Option.ne_none_iff_exists'.1 hnew
          exact hcut oldRest newRest hold hnew

theorem refineWith_nil (fuel : Nat) (known : List Segment) : refineWith fuel [] known = known := by
  cases fuel <;> rfl

/-- What every step preserves holds when the steps are used up. -/
theorem refineWith_induction {P : List Segment → List Segment → Prop}
    (hstep : ∀ {pending known pending' known' : List Segment},
      RefineStep pending known pending' known' → P pending known → P pending' known')
    (fuel : Nat) (h : P pending known) : ∃ rest, P rest (refineWith fuel pending known) := by
  induction fuel generalizing pending known with
  | zero => exact ⟨pending, by rwa [refineWith]⟩
  | succ fuel ih =>
      cases pending with
      | nil => exact ⟨[], by rwa [refineWith_nil]⟩
      | cons s pending =>
          obtain ⟨left, known', hrefine, heq⟩ := refineWith_step s known
          rw [heq]
          exact ih (hstep (hrefine pending) h)

/-- Known segments and pending ones, each apart from the others of its list. -/
structure Refinable (pending known : List Segment) : Prop where
  tidy : Tidy known
  tight : ∀ s ∈ pending, s.key.Tight
  apart : pending.Pairwise fun s t => s.key.interval.Apart t.key.interval

/-- Two regions that can both be cut are regions of whole numbers. -/
theorem cut_of_without? {pieces pieces' : List Region} (ht : t.key.Tight) (hs : s.key.Tight)
    (htproper : t.isBottom = false) (hproper : s.isBottom = false)
    (hold : t.key.without? s.key = some pieces) (hnew : s.key.without? t.key = some pieces') :
    Cut t.key s.key pieces ∧ Cut s.key t.key pieces' := by
  have htkind := ht.ofKind (Region.integral_of_without? hold)
  have hskind := hs.ofKind (Region.integral_of_without? hnew)
  exact ⟨Region.without?_cut htkind hskind (isBottom_eq_false_iff.1 htproper).1 hold,
    Region.without?_cut hskind htkind (isBottom_eq_false_iff.1 hproper).1 hnew⟩

/-- Where a pending segment and a known one are cut, the rest of the known one and the shared keys take
its place. -/
theorem Tidy.cut {oldRest : List Region} (h : Tidy (t :: others)) (hs : s.key.Tight)
    (htouch : touches s.key t = true) (hold : Cut t.key s.key oldRest) :
    Tidy (others ++ Segment.spread t.value oldRest ++
      [⟨t.key.meet s.key, t.value.join s.value⟩]) := by
  obtain ⟨ht, htproper, happart, hothers⟩ := tidy_cons.1 h
  have hvalue := (isBottom_eq_false_iff.1 htproper).2
  have hshared : Segment.isBottom ⟨t.key.meet s.key, t.value.join s.value⟩ = false := by
    refine isBottom_eq_false_iff.2 ⟨?_, Interval.isBottom_eq_false_of_le (Interval.le_join_left _ _) hvalue⟩
    rwa [touches, Region.overlaps, Bool.not_eq_true'] at htouch
  refine ((hothers.append (.spread hold hvalue) ?_).concat (ht.meet hs) hshared ?_)
  · intro u hu v hv
    obtain ⟨piece, hpiece, rfl⟩ := mem_spread.1 hv
    exact (happart u hu).symm.mono (Interval.le_refl _) (hold.pieceOf piece hpiece).inside
  · intro u hu
    rw [ht.meet_interval hs]
    rcases List.mem_append.1 hu with hu | hu
    · exact (happart u hu).symm.mono (Interval.le_refl _) (Interval.meet_le_left _ _)
    · obtain ⟨piece, hpiece, rfl⟩ := mem_spread.1 hu
      exact (hold.pieceOf piece hpiece).apart.mono (Interval.le_refl _) (Interval.meet_le_right _ _)

theorem Refinable.step {pending' known' : List Segment} (h : Refinable pending known)
    (hstep : RefineStep pending known pending' known') : Refinable pending' known' := by
  obtain ⟨htidy, htight, happart⟩ := h
  cases hstep with
  | empty hbottom =>
      exact ⟨htidy, (List.forall_mem_cons.1 htight).2, (List.pairwise_cons.1 happart).2⟩
  | fresh hproper hfind =>
      obtain ⟨hs, htight⟩ := List.forall_mem_cons.1 htight
      exact ⟨htidy.concat hs hproper (htidy.apart_of_find?_eq_none hs hfind), htight,
        (List.pairwise_cons.1 happart).2⟩
  | joined hproper hperm hkey =>
      obtain ⟨ht, htproper, hothers, htidy⟩ := tidy_cons.1 (htidy.perm hperm)
      refine ⟨htidy.concat ht ?_ fun u hu => (hothers u hu).symm, (List.forall_mem_cons.1 htight).2,
        (List.pairwise_cons.1 happart).2⟩
      rw [isBottom_eq_false_iff] at htproper ⊢
      exact ⟨htproper.1, Interval.isBottom_eq_false_of_le (Interval.le_join_left _ _) htproper.2⟩
  | @cut s t pending _ others oldRest newRest hproper hperm htouch hold hnew =>
      obtain ⟨hs, htight⟩ := List.forall_mem_cons.1 htight
      obtain ⟨hsapart, happart⟩ := List.pairwise_cons.1 happart
      have hcons := htidy.perm hperm
      obtain ⟨ht, htproper, -, -⟩ := tidy_cons.1 hcons
      obtain ⟨hold, hnew⟩ := cut_of_without? ht hs htproper hproper hold hnew
      have hpieces := Tidy.spread hnew (isBottom_eq_false_iff.1 hproper).2
      refine ⟨hcons.cut hs htouch hold, List.forall_mem_append.2 ⟨fun u hu => ?_, htight⟩, ?_⟩
      · exact hpieces.tight u (List.mem_reverse.1 hu)
      · refine List.pairwise_append.2 ⟨?_, happart, fun u hu v hv => ?_⟩
        · exact List.pairwise_reverse.2 (hpieces.apart.imp fun h => h.symm)
        · obtain ⟨piece, hpiece, rfl⟩ := mem_spread.1 (List.mem_reverse.1 hu)
          exact (hsapart v hv).mono (hnew.pieceOf piece hpiece).inside (Interval.le_refl _)
  | merged hproper hperm =>
      obtain ⟨hs, htight⟩ := List.forall_mem_cons.1 htight
      have hsame := htidy.perm (hperm.trans (List.perm_append_singleton _ _).symm)
      exact ⟨hsame.absorb hs, htight, (List.pairwise_cons.1 happart).2⟩

/-- The two lists of a refinement, with all keys of one kind. -/
structure RefinableOf (k : Bool) (pending known : List Segment) : Prop extends Refinable pending known where
  pending_ofKind : ∀ s ∈ pending, s.key.OfKind k
  known_ofKind : ∀ s ∈ known, s.key.OfKind k

theorem RefinableOf.step {pending' known' : List Segment} (h : RefinableOf k pending known)
    (hstep : RefineStep pending known pending' known') : RefinableOf k pending' known' := by
  obtain ⟨hrefinable, hpending, hknown⟩ := h
  suffices hkinds : (∀ s ∈ pending', s.key.OfKind k) ∧ ∀ s ∈ known', s.key.OfKind k from
    ⟨hrefinable.step hstep, hkinds.1, hkinds.2⟩
  cases hstep with
  | empty hbottom => exact ⟨(List.forall_mem_cons.1 hpending).2, hknown⟩
  | fresh hproper hfind =>
      obtain ⟨hs, hpending⟩ := List.forall_mem_cons.1 hpending
      exact ⟨hpending, List.forall_mem_append.2 ⟨hknown, List.forall_mem_singleton.2 hs⟩⟩
  | @joined s t pending _ others hproper hperm hkey =>
      have hcons : ∀ u ∈ t :: others, u.key.OfKind k := fun u hu => hknown u (hperm.mem_iff.2 hu)
      obtain ⟨ht, hothers⟩ := List.forall_mem_cons.1 hcons
      exact ⟨(List.forall_mem_cons.1 hpending).2,
        List.forall_mem_append.2 ⟨hothers, List.forall_mem_singleton.2 ht⟩⟩
  | @cut s t pending _ others oldRest newRest hproper hperm htouch hold hnew =>
      have hcons : ∀ u ∈ t :: others, u.key.OfKind k := fun u hu => hknown u (hperm.mem_iff.2 hu)
      obtain ⟨ht, hothers⟩ := List.forall_mem_cons.1 hcons
      obtain ⟨hs, hpending⟩ := List.forall_mem_cons.1 hpending
      obtain ⟨-, htproper, -, -⟩ := tidy_cons.1 (hrefinable.tidy.perm hperm)
      obtain rfl : k = true := ht.integral_eq.symm.trans (Region.integral_of_without? hold)
      obtain ⟨hold, hnew⟩ := cut_of_without? ht.tight hs.tight htproper hproper hold hnew
      constructor
      · refine List.forall_mem_append.2 ⟨fun u hu => ?_, hpending⟩
        obtain ⟨piece, hpiece, rfl⟩ := mem_spread.1 (List.mem_reverse.1 hu)
        exact (hnew.pieceOf piece hpiece).ofKind
      · refine List.forall_mem_append.2 ⟨List.forall_mem_append.2 ⟨hothers, fun u hu => ?_⟩,
          List.forall_mem_singleton.2 (ht.meet hs)⟩
        obtain ⟨piece, hpiece, rfl⟩ := mem_spread.1 hu
        exact (hold.pieceOf piece hpiece).ofKind
  | merged hproper hperm =>
      obtain ⟨hs, hpending⟩ := List.forall_mem_cons.1 hpending
      have hsame := hperm.trans (List.perm_append_singleton _ _).symm
      exact ⟨hpending, absorb_ofKind (fun u hu => hknown u (hsame.mem_iff.2 hu)) hs⟩

theorem refinable_singleton (h : Tidy known) (hs : s.key.Tight) : Refinable [s] known :=
  ⟨h, List.forall_mem_singleton.2 hs, List.pairwise_singleton _ _⟩

theorem Tidy.refine (h : Tidy known) (hs : s.key.Tight) : Tidy (refine known s) := by
  obtain ⟨_, hrefinable⟩ := refineWith_induction (P := Refinable) (fun hstep h => h.step hstep)
    (2 * known.length + 1) (refinable_singleton h hs)
  exact hrefinable.tidy

theorem refine_ofKind (h : Tidy known) (hknown : ∀ t ∈ known, t.key.OfKind k) (hs : s.key.OfKind k) :
    ∀ t ∈ refine known s, t.key.OfKind k := by
  have hstart : RefinableOf k [s] known :=
    ⟨refinable_singleton h hs.tight, List.forall_mem_singleton.2 hs, hknown⟩
  obtain ⟨_, hrefinable⟩ := refineWith_induction (P := RefinableOf k) (fun hstep h => h.step hstep)
    (2 * known.length + 1) hstart
  exact hrefinable.known_ofKind

/-! ### Common segments -/

theorem mem_shared :
    u ∈ SegmentMap.shared ss ts ↔ ∃ s ∈ ss, ∃ t ∈ ts, u.isBottom = false ∧
      u = ⟨s.key.meet t.key, s.value.meet t.value⟩ := by
  simp only [SegmentMap.shared, List.mem_flatMap, List.mem_filterMap, Option.ite_none_left_eq_some,
    Option.some.injEq, Bool.not_eq_true]
  constructor
  · rintro ⟨s, hs, t, ht, hproper, rfl⟩
    exact ⟨s, hs, t, ht, hproper, rfl⟩
  · rintro ⟨s, hs, t, ht, hproper, rfl⟩
    exact ⟨s, hs, t, ht, hproper, rfl⟩

/-- What two segments share lies inside both. -/
theorem shared_inside (hs : s.key.Tight) (ht : t.key.Tight)
    (h : (if isBottom ⟨s.key.meet t.key, s.value.meet t.value⟩ then none
      else some ⟨s.key.meet t.key, s.value.meet t.value⟩) = some u) :
    u.key.interval.le s.key.interval = true ∧ u.key.interval.le t.key.interval = true := by
  split at h
  · cases h
  · obtain rfl := Option.some.inj h
    rw [hs.meet_interval ht]
    exact ⟨Interval.meet_le_left _ _, Interval.meet_le_right _ _⟩

theorem Tidy.shared (hss : Tidy ss) (hts : Tidy ts) : Tidy (SegmentMap.shared ss ts) where
  tight u hu := by
    obtain ⟨s, hs, t, ht, -, rfl⟩ := mem_shared.1 hu
    exact (hss.tight s hs).meet (hts.tight t ht)
  proper u hu := by
    obtain ⟨s, hs, t, ht, hproper, rfl⟩ := mem_shared.1 hu
    exact hproper
  apart := by
    rw [SegmentMap.shared, List.pairwise_flatMap]
    constructor
    · intro s hs
      rw [List.pairwise_filterMap]
      refine hts.apart.imp_of_mem fun {t t'} ht ht' happart u hu u' hu' => ?_
      exact happart.mono (shared_inside (hss.tight s hs) (hts.tight t ht) hu).2
        (shared_inside (hss.tight s hs) (hts.tight t' ht') hu').2
    · refine hss.apart.imp_of_mem fun {s s'} hs hs' happart u hu u' hu' => ?_
      obtain ⟨t, ht, hu⟩ := List.mem_filterMap.1 hu
      obtain ⟨t', ht', hu'⟩ := List.mem_filterMap.1 hu'
      exact happart.mono (shared_inside (hss.tight s hs) (hts.tight t ht) hu).1
        (shared_inside (hss.tight s' hs') (hts.tight t' ht') hu').1

/-! ### Keys of one kind -/

/-- A segment over keys of a kind that is not empty. -/
structure WellFormed (k : Bool) (s : Segment) : Prop where
  ofKind : s.key.OfKind k
  key_proper : s.key.isBottom = false
  value_proper : s.value.isBottom = false

/-- Segments that are not empty and share no key. -/
structure Partition (k : Bool) (ss : List Segment) : Prop where
  wellFormed : ∀ s ∈ ss, s.WellFormed k
  apart : ss.Pairwise fun s t => s.key.Apart t.key

theorem Partition.ofKind (h : Partition k ss) : ∀ s ∈ ss, s.key.OfKind k := fun s hs =>
  (h.wellFormed s hs).ofKind

theorem Partition.tidy (h : Partition k ss) : Tidy ss where
  tight s hs := (h.ofKind s hs).tight
  proper s hs := isBottom_eq_false_iff.2 ⟨(h.wellFormed s hs).key_proper, (h.wellFormed s hs).value_proper⟩
  apart := h.apart.imp_of_mem fun hs ht => ((h.ofKind _ hs).tight.apart_iff (h.ofKind _ ht).tight).1

/-- A partition is a list of tidy segments over keys of its kind. -/
theorem Tidy.partition (h : Tidy ss) (hkinds : ∀ s ∈ ss, s.key.OfKind k) : Partition k ss where
  wellFormed s hs :=
    have hproper := isBottom_eq_false_iff.1 (h.proper s hs)
    ⟨hkinds s hs, hproper.1, hproper.2⟩
  apart := h.apart.imp_of_mem fun hs ht => ((h.tight _ hs).apart_iff (h.tight _ ht)).2

theorem Partition.nil : Partition k [] := ⟨List.forall_mem_nil _, .nil⟩

theorem Partition.singleton (h : s.WellFormed k) : Partition k [s] :=
  ⟨List.forall_mem_singleton.2 h, List.pairwise_singleton _ _⟩

theorem Partition.absorb (h : Partition k known) (hs : s.key.OfKind k) :
    Partition k (absorb known s) :=
  (h.tidy.absorb hs.tight).partition (absorb_ofKind h.ofKind hs)

theorem Partition.absorbAll (h : Partition k known) (hss : ∀ s ∈ ss, s.key.OfKind k) :
    Partition k (absorbAll known ss) := by
  rw [Segment.absorbAll]
  induction ss generalizing known with
  | nil => exact h
  | cons s ss ih =>
      obtain ⟨hs, hss⟩ := List.forall_mem_cons.1 hss
      exact ih (h.absorb hs) hss

/-- Where a region is cut out of a partition, a segment over it fits in. -/
theorem Partition.replace {kept : List Segment} (h : Partition k ss) (hs : s.key.OfKind k)
    (hproper : s.isBottom = false) (hkept : outside? s.key ss = some kept) :
    Partition k (kept ++ [s]) := by
  have hkind : ∀ t ∈ ss, t.key.integral = true → s.key.integral = true := fun t ht hintegral =>
    (hs.integral_eq.trans (h.ofKind t ht).integral_eq.symm).trans hintegral
  have hsource := (h.tidy.outside?_spec hs.tight hkind hkept).2
  refine Tidy.partition ((h.tidy.outside? hs.tight hkind hkept).concat hs.tight hproper ?_)
    (List.forall_mem_append.2 ⟨?_, List.forall_mem_singleton.2 hs⟩)
  · intro u hu
    obtain ⟨_, _, rest, hu, hrest⟩ := hsource u hu
    exact hrest.apart u hu
  · intro u hu
    obtain ⟨t, ht, rest, hu, hrest⟩ := hsource u hu
    exact hrest.ofKind k (h.ofKind t ht) u hu

theorem Partition.refineAll {updates : List Segment} (h : Partition k known)
    (hupdates : ∀ s ∈ updates, s.key.OfKind k) : Partition k (updates.foldl refine known) := by
  induction updates generalizing known with
  | nil => exact h
  | cons s updates ih =>
      obtain ⟨hs, hupdates⟩ := List.forall_mem_cons.1 hupdates
      exact ih ((h.tidy.refine hs.tight).partition (refine_ofKind h.tidy h.ofKind hs)) hupdates

theorem Partition.shared (hss : Partition k ss) (hts : Partition k ts) :
    Partition k (SegmentMap.shared ss ts) := by
  refine (hss.tidy.shared hts.tidy).partition fun u hu => ?_
  obtain ⟨s, hs, t, ht, -, rfl⟩ := mem_shared.1 hu
  exact (hss.ofKind s hs).meet (hts.ofKind t ht)

end FlowAnalysis.Segment
