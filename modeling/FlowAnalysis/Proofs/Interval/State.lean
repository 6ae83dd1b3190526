import FlowAnalysis.Analysis.Fixpoint
import FlowAnalysis.Interval.State
import FlowAnalysis.Proofs.Graph
import FlowAnalysis.Proofs.Interval.Order
import FlowAnalysis.Proofs.Store

/-!
The domain of interval states. A state that is not bottom is a reachable store, and its laws of order
are those of stores of intervals.
-/

namespace FlowAnalysis.IntervalState

variable {s t u : IntervalState} {x : Identifier}

theorem isBottom_eq_false_iff :
    Extremal.isBottom s = false ↔ s.reachable = true ∧ Extremal.isBottom s.store = false := by
  change (!s.reachable || Extremal.isBottom s.store) = false ↔ _
  rw [Bool.or_eq_false_iff, Bool.not_eq_false']

theorem isTop_eq_false_iff (hreachable : s.reachable = true) :
    Extremal.isTop s = false ↔ Extremal.isTop s.store = false := by
  change (s.reachable && Extremal.isTop s.store) = false ↔ _
  rw [hreachable, Bool.true_and]

/-! ### Laws of order -/

theorem exclusive (h : Extremal.isBottom s = true) : Extremal.isTop s = false := by
  cases hreachable : s.reachable with
  | false =>
      change (s.reachable && Extremal.isTop s.store) = false
      rw [hreachable, Bool.false_and]
  | true =>
      change (!s.reachable || Extremal.isBottom s.store) = true at h
      rw [hreachable, Bool.not_true, Bool.false_or] at h
      rw [isTop_eq_false_iff hreachable]
      exact Store.exclusive Interval.extremes h

theorem extended :
    @Domain.Extended IntervalState _ (fun s t => Domain.le s.store t.store)
      (fun s t => do return ofStore (← Domain.join s.store t.store))
      (fun s t => do return ofStore (← Domain.widen s.store t.store)) :=
  ⟨fun _ _ => rfl, fun _ _ => rfl, fun _ _ => rfl, exclusive⟩

theorem extremes : Domain.Extremes IntervalState := extended.extremes

/-- What is above the store of a proper state makes a state above it. -/
theorem le_ofStore {store : Store Interval} (hle : Domain.le s.store store = true)
    (hbottom : Extremal.isBottom s = false) (htop : Extremal.isTop s = false) :
    Domain.le s (ofStore store) = true := by
  have hproper : Extremal.isBottom s.store = false := (isBottom_eq_false_iff.1 hbottom).2
  have hstore : Extremal.isBottom store = false :=
    (Store.extremes Interval.extremes).proper_of_le hle hproper
  exact extended.le_iff.2 (Or.inr (Or.inr ⟨hstore, htop, hle⟩))

theorem upperBounds : Domain.UpperBounds IntervalState := by
  have laws := Store.upperBounds Interval.upperBounds Interval.extremes
  refine extended.upperBounds (fun s => laws.le_refl s.store) laws.le_trans ?_ ?_
  · intro s t u hjoin
    obtain ⟨store, hstore, h⟩ := bind_eq_ok.1 hjoin
    obtain rfl := pure_eq_ok.1 h
    exact le_ofStore (laws.le_join_left hstore)
  · rintro s t u (hjoin | hwiden)
    · obtain ⟨store, hstore, h⟩ := bind_eq_ok.1 hjoin
      obtain rfl := pure_eq_ok.1 h
      exact le_ofStore (laws.le_join_right hstore)
    · obtain ⟨store, hstore, h⟩ := bind_eq_ok.1 hwiden
      obtain rfl := pure_eq_ok.1 h
      exact le_ofStore (laws.le_widen_right hstore)

/-- The forward analysis of a graph, with nothing known about the given variables. -/
def forward (g : Graph) (settings : Settings) (vars : List Identifier) :
    Analysis IntervalState Unit :=
  ⟨g, .forward, settings, none, ofVariables vars⟩

end FlowAnalysis.IntervalState
