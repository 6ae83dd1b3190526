import FlowAnalysis.Proofs.Analysis.PostFixpoint
import FlowAnalysis.Proofs.Analysis.Termination
import FlowAnalysis.Proofs.Interval.Shape
import Mathlib.Algebra.Group.Action.Defs
import Mathlib.Algebra.Order.BigOperators.Group.List
import Mathlib.Data.Set.Card

/-!
Widening ends. The intervals have chains without end, and a statement may move a bound either way, so a
loop head can be recomputed with any state until it is widened. From then on each recomputation loses a
bound that was finite. A single interval changes at most three times, from bottom to something and then once
for each of its bounds. A store of `N` ranges has at most `2 * N` of them, which bounds how often a loop head is
recomputed, and with that the whole run.
-/

namespace FlowAnalysis

namespace Interval

variable {a b : Interval}

/-! ### One interval -/

theorem widen_eq_left_iff : a.widen b = a ↔ b.le a = true := by
  refine ⟨fun h => ?_, widen_eq_left⟩
  have hle := le_widen_right a b
  rwa [h] at hle

/-- How often an interval can still change: bottom becomes any interval once, and every other change costs a finite
bound. -/
def rank (a : Interval) : Nat := if a.isBottom then 3 else a.finiteBounds

theorem rank_bottom (h : a.isBottom = true) : a.rank = 3 := if_pos h

theorem rank_proper (h : a.isBottom = false) : a.rank = a.finiteBounds := by
  rw [rank, h]
  rfl

theorem rank_le (a : Interval) : a.rank ≤ 3 := by
  cases h : a.isBottom with
  | true => exact (rank_bottom h).le
  | false =>
      rw [rank_proper h]
      exact (finiteBounds_le a).trans (Nat.le_succ 2)

/-- A widening keeps an interval or costs it some rank. -/
theorem widen_eq_or_rank_lt (a b : Interval) : a.widen b = a ∨ (a.widen b).rank < a.rank := by
  cases ha : a.isBottom with
  | true =>
      rw [widen_bottom_left ha]
      cases hb : b.isBottom with
      | true =>
          left
          rw [isBottom_iff.1 ha, isBottom_iff.1 hb]
      | false =>
          right
          rw [rank_bottom ha, rank_proper hb]
          exact Nat.lt_succ_of_le (finiteBounds_le b)
  | false =>
      cases hb : b.isBottom with
      | true => exact Or.inl (widen_bottom_right ha hb)
      | false =>
          rw [rank_proper ha, rank_proper (isBottom_eq_false_of_le (le_widen_left a b) ha)]
          exact widen_eq_or_finiteBounds_lt ha hb

/-- An interval that is widened by one interval after the other. -/
def widenings (a : Interval) (bs : Nat → Interval) : Nat → Interval
  | 0 => a
  | i + 1 => (widenings a bs i).widen (bs i)

theorem rank_widenings_antitone (a : Interval) (bs : Nat → Interval) :
    Antitone fun i => (widenings a bs i).rank := by
  refine antitone_nat_of_succ_le fun i => ?_
  rcases widen_eq_or_rank_lt (widenings a bs i) (bs i) with h | h
  · exact (congrArg rank h).le
  · exact h.le

/-- An interval changes no more often than its rank allows. -/
theorem encard_changes_le (a : Interval) (bs : Nat → Interval) :
    {i | widenings a bs (i + 1) ≠ widenings a bs i}.encard ≤ a.rank := by
  have hlt : ∀ i, widenings a bs (i + 1) ≠ widenings a bs i →
      (widenings a bs (i + 1)).rank < (widenings a bs i).rank := fun i hchange =>
    (widen_eq_or_rank_lt (widenings a bs i) (bs i)).resolve_left hchange
  have hanti := rank_widenings_antitone a bs
  -- After each change the rank is one that it never was after a change before.
  have hmaps : Set.MapsTo (fun i => (widenings a bs (i + 1)).rank)
      {i | widenings a bs (i + 1) ≠ widenings a bs i} (Finset.range a.rank) := by
    intro i hi
    exact Finset.mem_coe.2 (Finset.mem_range.2 ((hlt i hi).trans_le (hanti (Nat.zero_le i))))
  have hinj : Set.InjOn (fun i => (widenings a bs (i + 1)).rank)
      {i | widenings a bs (i + 1) ≠ widenings a bs i} := by
    intro i hi j hj hsame
    rcases lt_trichotomy i j with hij | rfl | hji
    · exact absurd hsame ((hlt j hj).trans_le (hanti hij)).ne'
    · rfl
    · exact absurd hsame ((hlt i hi).trans_le (hanti hji)).ne
  have hle := Set.encard_le_encard_of_injOn hmaps hinj
  rwa [Set.encard_coe_eq_coe_finsetCard, Finset.card_range] at hle

/-- Widening of intervals is a widening: it is above the join, it keeps an interval exactly if that covers the other one,
and whatever bottom or top settles is what the bounds give as well. However often an interval is widened, it changes at
most three times. -/
theorem widening_stabilizes (a b : Interval) (bs : Nat → Interval) :
    (a.join b).le (a.widen b) = true ∧ (a.widen b = a ↔ b.le a = true) ∧
    (∀ c, Extremal.settledJoin a b = some c → a.widen b = c) ∧
    {i | widenings a bs (i + 1) ≠ widenings a bs i}.encard ≤ 3 := by
  refine ⟨join_le (le_widen_left a b) (le_widen_right a b), widen_eq_left_iff, fun c => widen_of_settledJoin, ?_⟩
  exact (encard_changes_le a bs).trans (by exact_mod_cast rank_le a)

-- Three changes do occur.
example : (List.range 4).map (widenings bottom fun i => .of (.fin (-i)) (.fin (i - 1 : Nat))) =
    [bottom, point 0, of .negInf 0, top] := by decide +kernel

end Interval

namespace IntervalState

variable {identifiers : List Identifier} {s t u : IntervalState}

/-- How many bounds of the ranges of a state are not at their infinity. -/
def finiteBounds (s : IntervalState) : Nat :=
  (s.store.keys.map fun x => (s.value x).finiteBounds).sum

theorem finiteBounds_le (hs : Shaped identifiers s) : s.finiteBounds ≤ 2 * identifiers.length := by
  have hranges : ∀ count ∈ s.store.keys.map fun x => (s.value x).finiteBounds, count ≤ 2 := by
    intro count hcount
    obtain ⟨x, -, rfl⟩ := List.mem_map.1 hcount
    exact Interval.finiteBounds_le _
  have hsum : s.finiteBounds ≤ _ := List.sum_le_card_nsmul _ 2 hranges
  rwa [List.length_map, hs.keys_eq, smul_eq_mul, Nat.mul_comm] at hsum

/-- A widening keeps each range or costs it a finite bound. -/
theorem widen_ranges (hs : Shaped identifiers s) (ht : Shaped identifiers t)
    (hproper : Extremal.isBottom s = false) (hwiden : Domain.widen s t = .ok u) {x : Identifier}
    {a : Interval} (ha : s.get? x = some a) :
    ∃ c, u.get? x = some c ∧ (c = a ∨ c.finiteBounds < a.finiteBounds) := by
  have hx : x ∈ t.store.keys :=
    (hs.keys_eq.trans ht.keys_eq.symm) ▸ OrderedMap.mem_keys_iff.2 ⟨a, ha⟩
  -- Top has no finite bound left, so that no range is above it for nothing.
  have htop : Extremal.isTop t.store = true →
      ∃ c, t.get? x = some c ∧ (c = a ∨ c.finiteBounds < a.finiteBounds) := by
    intro htop
    obtain ⟨c, hc⟩ := OrderedMap.mem_keys_iff.1 hx
    have hctop : c.isTop = true := Store.isTop_iff.1 htop x c hc
    refine ⟨c, hc, ?_⟩
    rcases Nat.eq_zero_or_pos a.finiteBounds with hzero | hpos
    · have hc := Interval.isTop_iff.1 hctop
      have ha := Interval.isTop_iff.1 (Interval.finiteBounds_eq_zero_iff.1 hzero)
      exact Or.inl (Interval.ext (hc.1.trans ha.1.symm) (hc.2.trans ha.2.symm))
    · exact Or.inr (Interval.finiteBounds_eq_zero_iff.2 hctop ▸ hpos)
  rw [extended.widen_eq] at hwiden
  rcases Extremal.settledJoin_cases hwiden with ⟨rfl, -⟩ | ⟨rfl, hset⟩ | ⟨-, ⟨hproper', -⟩, hwiden⟩
  · exact ⟨a, ha, Or.inl rfl⟩
  · rcases hset with hbottom | htop'
    · rw [hproper] at hbottom
      cases hbottom
    · exact htop (Bool.and_eq_true_iff.1 htop').2
  · obtain ⟨store, hstore, h⟩ := bind_eq_ok.1 hwiden
    obtain rfl := pure_eq_ok.1 h
    rw [(Store.extended Interval.extremes).widen_eq] at hstore
    rcases Extremal.settledJoin_cases hstore with ⟨rfl, -⟩ | ⟨rfl, hset⟩ | ⟨-, -, hcombine⟩
    · exact ⟨a, ha, Or.inl rfl⟩
    · rcases hset with hbottom | htop'
      · rw [(isBottom_eq_false_iff.1 hproper).2] at hbottom
        cases hbottom
      · exact htop htop'
    · obtain ⟨b, c, hb, hc, hentry⟩ := Store.combine_get? hcombine ha
      obtain rfl := pure_eq_ok.1 hentry
      exact ⟨a.widen b, hc,
        Interval.widen_eq_or_finiteBounds_lt (hs.proper hproper x a ha) (ht.proper hproper' x b hb)⟩

/-- States with the same ranges are below each other. -/
theorem le_of_get?_eq (hget : ∀ x, u.get? x = s.get? x) (hs : Extremal.isBottom s = false) :
    Domain.le u s = true := by
  rw [extended.le_iff]
  cases hu : Extremal.isBottom u with
  | true => exact Or.inl rfl
  | false =>
      cases htop : Extremal.isTop s with
      | true => exact Or.inr (Or.inl rfl)
      | false =>
          obtain ⟨hreachable, hstore⟩ := isBottom_eq_false_iff.1 hs
          have hutop : Extremal.isTop u.store = false := by
            rw [isTop_eq_false_iff hreachable, Bool.eq_false_iff] at htop
            rw [Bool.eq_false_iff]
            intro h
            exact htop (Store.isTop_iff.2 fun x a ha =>
              Store.isTop_iff.1 h x a ((hget x).trans ha))
          have hle : Store.pointwiseLe u.store s.store = true :=
            Store.pointwiseLe_iff.2 fun x a ha => ⟨a, (hget x).symm.trans ha, Interval.le_refl a⟩
          refine Or.inr (Or.inr ⟨hs, ?_, ?_⟩)
          · exact (isTop_eq_false_iff (isBottom_eq_false_iff.1 hu).1).2 hutop
          · exact (Store.extended Interval.extremes).le_iff.2
              (Or.inr (Or.inr ⟨hstore, hutop, hle⟩))

/-- A widening that is not covered by what it widens has fewer finite bounds. -/
theorem widen_finiteBounds_lt (hs : Shaped identifiers s) (ht : Shaped identifiers t)
    (hproper : Extremal.isBottom s = false) (hwiden : Domain.widen s t = .ok u)
    (hle : Domain.le u s = false) : u.finiteBounds < s.finiteBounds := by
  have hu : Shaped identifiers u := ((shaped_closed identifiers).widen hs ht).result hwiden
  have hranges : ∀ x ∈ s.store.keys, u.get? x = s.get? x ∨
      (u.value x).finiteBounds < (s.value x).finiteBounds := by
    intro x hx
    obtain ⟨a, ha⟩ := OrderedMap.mem_keys_iff.1 hx
    have ha : s.get? x = some a := ha
    obtain ⟨c, hc, rfl | hlt⟩ := widen_ranges hs ht hproper hwiden ha
    · exact Or.inl (hc.trans ha.symm)
    · right
      rw [value, value, hc, ha]
      exact hlt
  rw [finiteBounds, finiteBounds, hu.keys_eq, ← hs.keys_eq]
  refine List.sum_lt_sum _ _ ?_ ?_
  · intro x hx
    rcases hranges x hx with heq | hlt
    · rw [value, value, heq]
    · exact hlt.le
  · by_contra hnone
    have hget : ∀ x, u.get? x = s.get? x := by
      intro x
      by_cases hx : x ∈ s.store.keys
      · exact (hranges x hx).resolve_right fun hlt => hnone ⟨x, hx, hlt⟩
      · have hx' : x ∉ u.store.keys := by rwa [hu.keys_eq, ← hs.keys_eq]
        exact (OrderedMap.get?_eq_none_iff.2 hx').trans (OrderedMap.get?_eq_none_iff.2 hx).symm
    rw [le_of_get?_eq hget hproper] at hle
    cases hle

/-! ### Runs -/

variable {g : Graph} {settings : Settings} {vars : List Identifier} {p : Progress IntervalState}

/-- How often a loop head was recomputed and what it has left to lose stay below one bound. -/
def Bounded (g : Graph) (settings : Settings) (vars : List Identifier) (p : Progress IntervalState)
    (h : Nat) : Prop :=
  0 < p.iterations h → Extremal.isBottom ((forward g settings vars).previous p h) = false ∧
    p.iterations h + ((forward g settings vars).previous p h).finiteBounds ≤
      settings.widening + 1 + 2 * (ofVariables vars).store.size

/-- Entering a loop head anew costs a finite bound as soon as it is widened. -/
theorem Bounded.entering {h : Nat} {s : IntervalState}
    (hstored : Analysis.Stored (Shaped (ofVariables vars).store.keys) p)
    (hbounded : Bounded g settings vars p h)
    (henter : (forward g settings vars).entering p h .loop = .ok s)
    (hle : Domain.le s ((forward g settings vars).previous p h) = false) :
    Extremal.isBottom s = false ∧ p.iterations h + 1 + s.finiteBounds ≤
      settings.widening + 1 + 2 * (ofVariables vars).store.size := by
  have hclosed := shaped_closed (ofVariables vars).store.keys
  have hinitial := ofVariables_shaped vars
  constructor
  · rw [Bool.eq_false_iff] at hle ⊢
    exact fun hbottom => hle (extended.le_iff.2 (Or.inl hbottom))
  · have hs := (Analysis.entering_concludes hclosed hinitial hstored h .loop).result henter
    obtain ⟨t, harrival, henter⟩ := bind_eq_ok.1 henter
    split at henter
    · rename_i hwidens
      have hpast : settings.widening < p.iterations h := of_decide_eq_true hwidens
      obtain ⟨hprevious, hbound⟩ := hbounded (Nat.zero_lt_of_lt hpast)
      have hlt := widen_finiteBounds_lt (Analysis.previous_closed hclosed hinitial hstored h)
        ((Analysis.arrival_concludes hclosed hinitial hstored h).result harrival) hprevious henter hle
      omega
    · rename_i hwidens
      have hbefore : p.iterations h ≤ settings.widening :=
        Nat.le_of_not_lt fun hpast => hwidens (decide_eq_true hpast)
      have hbounds := finiteBounds_le hs
      rw [OrderedMap.length_keys] at hbounds
      omega

theorem stage_bounded (hstage : (forward g settings vars).Stage p) {h : Nat}
    (hloop : g.nodes[h]? = some .loop) : Bounded g settings vars p h := by
  induction hstage with
  | begin =>
      intro hcomputed
      rw [Progress.iterations, Analysis.begin_at?] at hcomputed
      cases hcomputed
  | @visit p p' n rest hstage _ hvisit ih =>
      have hstored := Analysis.Stage.stored (shaped_closed _) (ofVariables_shaped vars) hstage
      cases Analysis.visit_cases hvisit with
      | missing _ => exact ih
      | stable _ _ _ => exact ih
      | @recomputed node s states hnode henter hle hexecute _ =>
          have hn : n < (p.taken rest).stored.size :=
            hstage.size.symm ▸ (Array.getElem?_eq_some_iff.1 hnode).1
          intro hcomputed
          rw [Analysis.iterations_recorded _ hn] at hcomputed ⊢
          rw [Analysis.previous_recorded hn hexecute]
          by_cases hh : h = n
          · subst hh
            obtain rfl : node = .loop := Option.some.inj (hnode.symm.trans hloop)
            rw [if_pos rfl, if_pos rfl]
            exact Bounded.entering (p := p.taken rest) hstored ih henter hle
          · rw [if_neg hh, Nat.add_zero] at hcomputed ⊢
            rw [if_neg hh]
            exact ih hcomputed

theorem loop_iterations_le (hstage : (forward g settings vars).Stage p) {h : Nat}
    (hloop : g.nodes[h]? = some .loop) :
    p.iterations h ≤ settings.widening + 1 + 2 * (ofVariables vars).store.size := by
  rcases Nat.eq_zero_or_pos (p.iterations h) with hzero | hpos
  · omega
  · have hbound := (stage_bounded hstage hloop hpos).2
    omega

/-- At every stage of a forward run a loop head was recomputed at most until widening starts, once more,
and once for each bound in the store; nodes were visited at most once for the entry and once for each
edge that leaves a recomputed node. If every cycle passes a loop head and there is no cap, the run ends,
and it can only fail for what a statement means. -/
theorem forward_terminates {nodes : List Node} {edges : List Edge} {entry exit : Nat} {g : Graph}
    (hbuild : Graph.build nodes edges entry exit = .ok g) (settings : Settings)
    (vars : List Identifier) :
    (∀ p, (forward g settings vars).Stage p →
      (∀ h, g.nodes[h]? = some .loop →
        p.iterations h ≤ settings.widening + 1 + 2 * (ofVariables vars).store.size) ∧
      p.visits + p.queue.length ≤
        1 + ∑ n ∈ Finset.range g.size, p.iterations n * (g.outEdges n).length) ∧
    (settings.maxIterations = none → g.CutAtLoops →
      ∃ steps outcome, (forward g settings vars).runWithin steps = some outcome ∧
        ∀ e, outcome = .error e → e.IsSemantic) := by
  refine ⟨fun p hstage => ⟨fun h hloop => loop_iterations_le hstage hloop, ?_⟩, ?_⟩
  · have hvisits := hstage.visits_le
    simpa [forward, Analysis.behind, Graph.successors] using hvisits
  · intro hcap hcut
    exact Analysis.exists_runWithin (shaped_closed _) (ofVariables_shaped vars)
      (Graph.build_wired hbuild).1 hcut hcap fun h hloop =>
        ⟨_, fun p hstage => loop_iterations_le hstage hloop⟩

theorem forward_terminates_counting :
    Graph.build Graph.Counting.nodes Graph.Counting.edges 0 3 = .ok Graph.Counting.graph ∧
      Graph.Counting.graph.CutAtLoops ∧
      (∀ p, (forward Graph.Counting.graph {} [Graph.Counting.counter]).Stage p →
        p.iterations 1 ≤ 6) ∧
      ∃ steps outcome,
        (forward Graph.Counting.graph {} [Graph.Counting.counter]).runWithin steps = some outcome ∧
          ∀ e, outcome = .error e → e.IsSemantic := by
  obtain ⟨hbounds, hends⟩ :=
    forward_terminates Graph.Counting.build_eq {} [Graph.Counting.counter]
  exact ⟨Graph.Counting.build_eq, Graph.Counting.cutAtLoops,
    fun p hstage => (hbounds p hstage).1 1 rfl, hends rfl Graph.Counting.cutAtLoops⟩

end IntervalState

end FlowAnalysis
