import FlowAnalysis.Proofs.Analysis.Closure
import FlowAnalysis.Proofs.Analysis.PostFixpoint
import Mathlib.Data.List.Forall2

/-!
Least solutions. If every operation of a domain is monotone and a widening gives no more than any upper
bound of its arguments, then a run never leaves what any solution allows: at every stage, the states of
the computed nodes are below those of the solution. A result is a solution itself, so it is the least
one, whatever the settings were. The comparison is made between two analyses of one graph, of which the
second may know less beforehand.
-/

namespace FlowAnalysis

variable {S Pre : Type} [StateDomain S Pre] {P : S → Prop}

/-- Larger states have larger outcomes, among those with the property `P`. -/
def Domain.IsMonotone (P : S → Prop) (f : S → Outcome S) : Prop :=
  ∀ ⦃s t s' t' : S⦄, P s → P t → Domain.le s t = true → f s = .ok s' → f t = .ok t' →
    Domain.le s' t' = true

/-- The operations of the domain keep the property `P` and are monotone on the states that have it, and
joins and widenings are below any upper bound. Single expressions are applied to states that are not
bottom alone. -/
structure StateDomain.Monotonic (P : S → Prop) : Prop extends Closed AnalysisError.IsSemantic P where
  upperBounds : Domain.UpperBounds S
  extremes : Domain.Extremes S
  isBottom_bottom : ∀ s : S, Extremal.isBottom (Extremal.bottom s) = true
  bottom_le : ∀ {s : S} (t : S), Extremal.isBottom s = true → Domain.le s t = true
  isBottom_withResult : ∀ (s : S) (found : Alternatives),
    Extremal.isBottom (StateDomain.withResult s found) = Extremal.isBottom s
  result_withResult : ∀ (s : S) (found : Alternatives),
    StateDomain.result (StateDomain.withResult s found) = found
  withResult_le : ∀ {s t : S} (found : Alternatives), Domain.le s t = true →
    Domain.le (StateDomain.withResult s found) (StateDomain.withResult t found) = true
  join_le : ∀ {s t u v : S}, P s → P t → P v → Domain.join s t = .ok u →
    Domain.le s v = true → Domain.le t v = true → Domain.le u v = true
  widen_le : ∀ {s t u v : S}, P s → P t → P v → Domain.widen s t = .ok u →
    Domain.le s v = true → Domain.le t v = true → Domain.le u v = true
  assignOne_le : ∀ left right : Expr, Domain.IsMonotone
    (fun s => P s ∧ Extremal.isBottom s = false) (StateDomain.assignOne · left right)
  assumeOne_le : ∀ condition : Expr, Domain.IsMonotone
    (fun s => P s ∧ Extremal.isBottom s = false) (StateDomain.assumeOne · condition)
  substituteOne_le : ∀ left right : Expr, Domain.IsMonotone
    (fun s => P s ∧ Extremal.isBottom s = false) (StateDomain.substituteOne · left right)
  outputOne_le : ∀ value : Expr, Domain.IsMonotone
    (fun s => P s ∧ Extremal.isBottom s = false) (StateDomain.outputOne · value)
  enterIf_le : ∀ {s t : S}, Domain.le s t = true →
    Domain.le (StateDomain.enterIf s) (StateDomain.enterIf t) = true
  exitIf_le : ∀ {s t : S}, Domain.le s t = true →
    Domain.le (StateDomain.exitIf s) (StateDomain.exitIf t) = true
  enterLoop_le : ∀ {s t : S}, Domain.le s t = true →
    Domain.le (StateDomain.enterLoop s) (StateDomain.enterLoop t) = true
  exitLoop_le : ∀ {s t : S}, Domain.le s t = true →
    Domain.le (StateDomain.exitLoop s) (StateDomain.exitLoop t) = true

/-! ### Statements -/

namespace StateDomain

variable {s u : S} {ι : Type} {apply : S → ι → Outcome S}

theorem joinEach_of_isBottom (h : Extremal.isBottom s = true) (items : List ι) :
    joinEach s items apply = .ok (cleared s) := by
  unfold joinEach
  rw [h]
  cases items <;> rfl

theorem joinEach_cons (h : Extremal.isBottom s = false) (first : ι) (rest : List ι) :
    joinEach s (first :: rest) apply = (do
      let outcome ← apply s first
      let joined ← rest.foldlM (fun joined item => do Domain.join joined (← apply s item)) outcome
      return cleared joined) := by
  unfold joinEach
  rw [h]
  rfl

/-- Whatever the items are, the expressions of the last statement are dropped. -/
theorem exists_cleared_of_joinEach {items : List ι} (h : joinEach s items apply = .ok u) :
    ∃ v, u = cleared v := by
  unfold joinEach at h
  split at h
  · exact ⟨s, (pure_eq_ok.1 h).symm⟩
  · split at h
    · exact ⟨s, (pure_eq_ok.1 h).symm⟩
    · obtain ⟨outcome, -, h⟩ := bind_eq_ok.1 h
      obtain ⟨joined, -, h⟩ := bind_eq_ok.1 h
      exact ⟨joined, (pure_eq_ok.1 h).symm⟩

end StateDomain

namespace StateDomain.Monotonic

variable {s t s' t' : S}

/-- Joining in the outcomes for some items is monotone if each of them is. -/
theorem foldlM_join_le (m : Monotonic P) {ι : Type} {items : List ι} {f g : ι → Outcome S}
    (hf : ∀ item, Meets P (f item)) (hg : ∀ item, Meets P (g item))
    (hfg : ∀ {item u v}, f item = .ok u → g item = .ok v → Domain.le u v = true) {u v u' v' : S}
    (hu : P u) (hv : P v) (hle : Domain.le u v = true)
    (hu' : items.foldlM (fun joined item => do Domain.join joined (← f item)) u = .ok u')
    (hv' : items.foldlM (fun joined item => do Domain.join joined (← g item)) v = .ok v') :
    Domain.le u' v' = true := by
  induction items generalizing u v with
  | nil =>
      obtain rfl := pure_eq_ok.1 hu'
      obtain rfl := pure_eq_ok.1 hv'
      exact hle
  | cons item items ih =>
      rw [List.foldlM_cons] at hu' hv'
      obtain ⟨u₁, hjoin, hu'⟩ := bind_eq_ok.1 hu'
      obtain ⟨v₁, hjoin', hv'⟩ := bind_eq_ok.1 hv'
      obtain ⟨u₂, hfirst, hjoin⟩ := bind_eq_ok.1 hjoin
      obtain ⟨v₂, hfirst', hjoin'⟩ := bind_eq_ok.1 hjoin'
      have hu₂ := (hf item).result hfirst
      have hv₂ := (hg item).result hfirst'
      have hv₁ := (m.join hv hv₂).result hjoin'
      refine ih ((m.join hu hu₂).result hjoin) hv₁ ?_ hu' hv'
      exact m.join_le hu hu₂ hv₁ hjoin
        (m.upperBounds.le_trans hle (m.upperBounds.le_join_left hjoin'))
        (m.upperBounds.le_trans (hfg hfirst hfirst') (m.upperBounds.le_join_right hjoin'))

/-- Joining the outcomes for all items is monotone if each of them is. -/
theorem joinEach_le (m : Monotonic P) {ι : Type} (items : List ι) {apply : S → ι → Outcome S}
    (hclosed : ∀ {s : S} (item : ι), P s → Extremal.isBottom s = false → Meets P (apply s item))
    (hmono : ∀ item, Domain.IsMonotone (fun s => P s ∧ Extremal.isBottom s = false) (apply · item))
    (hs : P s) (ht : P t) (hle : Domain.le s t = true)
    (hs' : StateDomain.joinEach s items apply = .ok s')
    (ht' : StateDomain.joinEach t items apply = .ok t') :
    Domain.le s' t' = true ∧ result s' = result t' := by
  constructor
  · cases hbottom : Extremal.isBottom s with
    | true =>
        rw [joinEach_of_isBottom hbottom] at hs'
        obtain rfl := Except.ok.inj hs'
        exact m.bottom_le _ ((m.isBottom_withResult s _).trans hbottom)
    | false =>
        have hproper := m.extremes.proper_of_le hle hbottom
        have happly : ∀ {item u v}, apply s item = .ok u → apply t item = .ok v →
            Domain.le u v = true := fun hu hv => hmono _ ⟨hs, hbottom⟩ ⟨ht, hproper⟩ hle hu hv
        cases items with
        | nil =>
            obtain rfl := pure_eq_ok.1 hs'
            obtain rfl := pure_eq_ok.1 ht'
            exact m.withResult_le _ hle
        | cons first rest =>
            rw [joinEach_cons hbottom] at hs'
            rw [joinEach_cons hproper] at ht'
            obtain ⟨u, hu, hs'⟩ := bind_eq_ok.1 hs'
            obtain ⟨v, hv, ht'⟩ := bind_eq_ok.1 ht'
            obtain ⟨u', hu', hs'⟩ := bind_eq_ok.1 hs'
            obtain ⟨v', hv', ht'⟩ := bind_eq_ok.1 ht'
            obtain rfl := pure_eq_ok.1 hs'
            obtain rfl := pure_eq_ok.1 ht'
            exact m.withResult_le _ (m.foldlM_join_le (hclosed · hs hbottom) (hclosed · ht hproper)
              happly ((hclosed first hs hbottom).result hu) ((hclosed first ht hproper).result hv)
              (happly hu hv) hu' hv')
  · obtain ⟨u, rfl⟩ := exists_cleared_of_joinEach hs'
    obtain ⟨v, rfl⟩ := exists_cleared_of_joinEach ht'
    exact (m.result_withResult u _).trans (m.result_withResult v _).symm

/-- Statements are monotone, and they leave the same expressions behind, unless no execution goes on
after them. -/
theorem perform_le (m : Monotonic P) (direction : Direction) (statement : Stmt) (hs : P s) (ht : P t)
    (hle : Domain.le s t = true) (hs' : StateDomain.perform direction statement s = .ok s')
    (ht' : StateDomain.perform direction statement t = .ok t') :
    Domain.le s' t' = true ∧ (Extremal.isBottom s' = true ∨ result s' = result t') := by
  -- both runs translate the statement in the same way
  have hshared : ∀ {α : Type} {x : Outcome α} {f g : α → Outcome S},
      x >>= f = .ok s' → x >>= g = .ok t' → ∃ a, f a = .ok s' ∧ g a = .ok t' := by
    intro α x f g hf hg
    obtain ⟨a, ha, hf⟩ := bind_eq_ok.1 hf
    obtain ⟨b, hb, hg⟩ := bind_eq_ok.1 hg
    obtain rfl := Except.ok.inj (ha.symm.trans hb)
    exact ⟨a, hf, hg⟩
  have haccess : ∀ {statement : Stmt},
      (do let found ← statement.alternatives; return StateDomain.withResult s found) = .ok s' →
      (do let found ← statement.alternatives; return StateDomain.withResult t found) = .ok t' →
        Domain.le s' t' = true ∧ (Extremal.isBottom s' = true ∨ result s' = result t') := by
    intro statement hs' ht'
    obtain ⟨found, hs', ht'⟩ := hshared hs' ht'
    obtain rfl := pure_eq_ok.1 hs'
    obtain rfl := pure_eq_ok.1 ht'
    exact ⟨m.withResult_le _ hle, Or.inr (by rw [m.result_withResult, m.result_withResult])⟩
  have houtput : ∀ {values : List Stmt},
      (do let found ← Stmt.alternativesOf values; StateDomain.output s found) = .ok s' →
      (do let found ← Stmt.alternativesOf values; StateDomain.output t found) = .ok t' →
        Domain.le s' t' = true ∧ (Extremal.isBottom s' = true ∨ result s' = result t') := by
    intro values hs' ht'
    obtain ⟨found, hs', ht'⟩ := hshared hs' ht'
    exact (m.joinEach_le _ (fun item => m.outputOne item) m.outputOne_le hs ht hle hs' ht').imp_right
      Or.inr
  cases statement with
  | assign point left right =>
      obtain ⟨found, hs', ht'⟩ := hshared hs' ht'
      obtain ⟨found', hs', ht'⟩ := hshared hs' ht'
      cases direction with
      | forward =>
          exact (m.joinEach_le (pairs found found') (fun p => m.assignOne p.1 p.2)
            (fun p => m.assignOne_le p.1 p.2) hs ht hle hs' ht').imp_right Or.inr
      | backward =>
          exact (m.joinEach_le (pairs found found') (fun p => m.substituteOne p.1 p.2)
            (fun p => m.substituteOne_le p.1 p.2) hs ht hle hs' ht').imp_right Or.inr
  | call point name type arguments =>
      rw [StateDomain.perform] at hs' ht'
      split at hs'
      · rename_i hprint
        rw [if_pos hprint] at ht'
        exact houtput hs' ht'
      · rename_i hprint
        rw [if_neg hprint] at ht'
        exact haccess hs' ht'
  | ret point values => exact houtput hs' ht'
  | raise point =>
      obtain rfl := pure_eq_ok.1 hs'
      exact ⟨m.bottom_le _ (m.isBottom_bottom s), Or.inl (m.isBottom_bottom s)⟩
  | literal _ _ => exact haccess hs' ht'
  | var _ _ => exact haccess hs' ht'
  | item _ _ _ _ => exact haccess hs' ht'
  | slice _ _ _ _ _ _ => exact haccess hs' ht'
  | list _ _ _ => exact haccess hs' ht'
  | set _ _ _ => exact haccess hs' ht'
  | dict _ _ _ _ => exact haccess hs' ht'
  | field _ _ _ _ => exact haccess hs' ht'

theorem filter_le (m : Monotonic P) (hs : P s) (ht : P t) (hle : Domain.le s t = true)
    (hresult : Extremal.isBottom s = true ∨ result s = result t)
    (hs' : StateDomain.filter s = .ok s') (ht' : StateDomain.filter t = .ok t') :
    Domain.le s' t' = true := by
  rcases hresult with hbottom | hresult
  · obtain rfl := Except.ok.inj ((joinEach_of_isBottom hbottom _).symm.trans hs')
    exact m.bottom_le _ ((m.isBottom_withResult s _).trans hbottom)
  · unfold StateDomain.filter at hs' ht'
    rw [hresult] at hs'
    exact (m.joinEach_le _ (fun item => m.assumeOne item) m.assumeOne_le hs ht hle hs' ht').1

end StateDomain.Monotonic

/-! ### Nodes and edges -/

/-- State by state, one list is below the other. -/
abbrev StatesLe (states states' : List S) : Prop :=
  List.Forall₂ (fun s t => Domain.le s t = true) states states'

namespace Analysis

/-- The same analysis up to its settings, except that what `b` knows beforehand rules out no more than
what `a` knows. -/
structure Relaxes (P : S → Prop) (a b : Analysis S Pre) : Prop where
  graph_eq : b.graph = a.graph
  direction_eq : b.direction = a.direction
  initial_eq : b.initial = a.initial
  statement : ∀ {s t : S} (point : Point) (n i : Nat), P s → P t → Domain.le s t = true →
    Domain.le (StateDomain.before s point (a.precursoryAt n i))
      (StateDomain.before t point (b.precursoryAt n i)) = true
  guard : ∀ {s t : S} (point : Point) (e : Edge), P s → P t → Domain.le s t = true →
    Domain.le (StateDomain.before s point (a.precursoryFor e))
      (StateDomain.before t point (b.precursoryFor e)) = true

open StateDomain (Monotonic)

variable {a b : Analysis S Pre} {n i : Nat} {statements : List Stmt} {s t : S} {states states' : List S}

theorem head?_le (h : StatesLe states states') (hs : states.head? = some s)
    (ht : states'.head? = some t) : Domain.le s t = true := by
  cases h with
  | nil => cases hs
  | cons hfirst _ =>
      cases hs
      cases ht
      exact hfirst

theorem getLast?_le (h : StatesLe states states') (hs : states.getLast? = some s)
    (ht : states'.getLast? = some t) : Domain.le s t = true := by
  rw [List.getLast?_eq_head?_reverse] at hs ht
  exact head?_le (List.forall₂_reverse_iff.2 h) hs ht

theorem outgoing?_le (h : StatesLe states states') (hs : a.outgoing? states = some s)
    (ht : a.outgoing? states' = some t) : Domain.le s t = true := by
  unfold outgoing? at hs ht
  cases hdirection : a.direction <;> rw [hdirection] at hs ht
  · exact getLast?_le h hs ht
  · exact head?_le h hs ht

theorem incoming?_le (h : StatesLe states states') (hs : a.incoming? states = some s)
    (ht : a.incoming? states' = some t) : Domain.le s t = true := by
  unfold incoming? at hs ht
  cases hdirection : a.direction <;> rw [hdirection] at hs ht
  · exact head?_le h hs ht
  · exact getLast?_le h hs ht

theorem replicate_bottom_le (m : Monotonic P) (s : S) (states : List S) :
    StatesLe (List.replicate states.length (Extremal.bottom s)) states := by
  induction states with
  | nil => exact .nil
  | cons t states ih => exact .cons (m.bottom_le t (m.isBottom_bottom s)) ih

theorem enterScope_le (m : Monotonic P) (direction : Direction) (kind : EdgeKind)
    (hle : Domain.le s t = true) :
    Domain.le (enterScope direction kind s) (enterScope direction kind t) = true := by
  unfold enterScope
  split
  · exact m.enterIf_le hle
  · exact m.enterLoop_le hle
  · exact m.enterIf_le hle
  · exact m.enterLoop_le hle
  · exact hle

theorem exitScope_le (m : Monotonic P) (direction : Direction) (kind : EdgeKind)
    (hle : Domain.le s t = true) :
    Domain.le (exitScope direction kind s) (exitScope direction kind t) = true := by
  unfold exitScope
  split
  · exact m.exitIf_le hle
  · exact m.exitLoop_le hle
  · exact m.exitIf_le hle
  · exact m.exitLoop_le hle
  · exact hle

/-- A statement is performed after what was known before it, and states stay comparable. -/
theorem performed_le (m : Monotonic P) {direction : Direction} {statement : Stmt}
    {known known' : Option Pre} {s' t' : S} (hs : P s) (ht : P t)
    (hle : Domain.le (StateDomain.before s statement.point known)
      (StateDomain.before t statement.point known') = true)
    (hs' : StateDomain.perform direction statement
      (StateDomain.before s statement.point known) = .ok s')
    (ht' : StateDomain.perform direction statement
      (StateDomain.before t statement.point known') = .ok t') :
    P s' ∧ P t' ∧ Domain.le s' t' = true ∧
      (Extremal.isBottom s' = true ∨ StateDomain.result s' = StateDomain.result t') := by
  have hs := m.before statement.point known hs
  have ht := m.before statement.point known' ht
  exact ⟨(m.toClosed.perform hs _ _).result hs', (m.toClosed.perform ht _ _).result ht',
    m.perform_le _ _ hs ht hle hs' ht'⟩

theorem traverse_le (m : Monotonic P) (hrelaxes : Relaxes P a b) (e : Edge) (hs : P s) (ht : P t)
    (hle : Domain.le s t = true) {u v : S}
    (hu : a.traverse e s = .ok u) (hv : b.traverse e t = .ok v) : Domain.le u v = true := by
  unfold traverse at hu hv
  rw [hrelaxes.direction_eq] at hv
  obtain ⟨u', hu', hu⟩ := bind_eq_ok.1 hu
  obtain ⟨v', hv', hv⟩ := bind_eq_ok.1 hv
  obtain rfl := pure_eq_ok.1 hu
  obtain rfl := pure_eq_ok.1 hv
  apply exitScope_le m
  have hs := enterScope_closed m.toClosed a.direction e.kind hs
  have ht := enterScope_closed m.toClosed a.direction e.kind ht
  have hle := enterScope_le m a.direction e.kind hle
  unfold passGuard at hu' hv'
  cases hguard : e.guard with
  | none =>
      rw [hguard] at hu' hv'
      obtain rfl := pure_eq_ok.1 hu'
      obtain rfl := pure_eq_ok.1 hv'
      exact hle
  | some condition =>
      rw [hguard] at hu' hv'
      obtain ⟨s', hs', hu'⟩ := bind_eq_ok.1 hu'
      obtain ⟨t', ht', hv'⟩ := bind_eq_ok.1 hv'
      obtain ⟨hs, ht, hle, hresult⟩ :=
        performed_le m hs ht (hrelaxes.guard condition.point e hs ht hle) hs' ht'
      exact m.filter_le hs ht hle hresult hu' hv'

theorem executeForward_le (m : Monotonic P) (hrelaxes : Relaxes P a b) (hs : P s) (ht : P t)
    (hle : Domain.le s t = true) (hstates : a.executeForward n i statements s = .ok states)
    (hstates' : b.executeForward n i statements t = .ok states') : StatesLe states states' := by
  induction statements generalizing i s t states states' with
  | nil =>
      obtain rfl := pure_eq_ok.1 hstates
      obtain rfl := pure_eq_ok.1 hstates'
      exact .cons hle .nil
  | cons statement rest ih =>
      rw [executeForward] at hstates hstates'
      obtain ⟨next, hnext, hstates⟩ := bind_eq_ok.1 hstates
      obtain ⟨next', hnext', hstates'⟩ := bind_eq_ok.1 hstates'
      obtain ⟨later, hlater, hstates⟩ := bind_eq_ok.1 hstates
      obtain ⟨later', hlater', hstates'⟩ := bind_eq_ok.1 hstates'
      obtain rfl := pure_eq_ok.1 hstates
      obtain rfl := pure_eq_ok.1 hstates'
      obtain ⟨hs', ht', hle', -⟩ :=
        performed_le m hs ht (hrelaxes.statement statement.point n i hs ht hle) hnext hnext'
      exact .cons hle (ih hs' ht' hle' hlater hlater')

theorem executeBackward_le (m : Monotonic P) (hrelaxes : Relaxes P a b) (hs : P s) (ht : P t)
    (hle : Domain.le s t = true) (hstates : a.executeBackward n i statements s = .ok states)
    (hstates' : b.executeBackward n i statements t = .ok states') : StatesLe states states' := by
  induction statements generalizing i states states' with
  | nil =>
      obtain rfl := pure_eq_ok.1 hstates
      obtain rfl := pure_eq_ok.1 hstates'
      exact .cons hle .nil
  | cons statement rest ih =>
      rw [executeBackward] at hstates hstates'
      obtain ⟨later, hlater, hstates⟩ := bind_eq_ok.1 hstates
      obtain ⟨later', hlater', hstates'⟩ := bind_eq_ok.1 hstates'
      obtain ⟨previous, hprevious, hstates⟩ := bind_eq_ok.1 hstates
      obtain ⟨previous', hprevious', hstates'⟩ := bind_eq_ok.1 hstates'
      obtain rfl := pure_eq_ok.1 hstates
      obtain rfl := pure_eq_ok.1 hstates'
      have hall := ih hlater hlater'
      have hhead : P (later.headD s) ∧ P (later'.headD t) ∧
          Domain.le (later.headD s) (later'.headD t) = true := by
        have hlater := (executeBackward_concludes m.toClosed hs).result hlater
        have hlater' := (executeBackward_concludes m.toClosed ht).result hlater'
        cases hall with
        | nil => exact ⟨hs, ht, hle⟩
        | cons hfirst _ =>
            exact ⟨hlater _ List.mem_cons_self, hlater' _ List.mem_cons_self, hfirst⟩
      obtain ⟨hs, ht, hle⟩ := hhead
      obtain ⟨-, -, hle', -⟩ := performed_le m hs ht
        (hrelaxes.statement statement.point n (i + 1) hs ht hle) hprevious hprevious'
      exact .cons hle' hall

theorem execute_le (m : Monotonic P) (hrelaxes : Relaxes P a b) (hs : P s) (ht : P t) (hle : Domain.le s t = true)
    (hstates : a.execute n s = .ok states) (hstates' : b.execute n t = .ok states') :
    StatesLe states states' := by
  unfold execute at hstates hstates'
  rw [hrelaxes.direction_eq, hrelaxes.graph_eq] at hstates'
  cases hdirection : a.direction <;> rw [hdirection] at hstates hstates'
  · exact executeForward_le m hrelaxes hs ht hle hstates hstates'
  · exact executeBackward_le m hrelaxes hs ht hle hstates hstates'

/-! ### Solutions -/

/-- A solution of an analysis, which no visit could change: a node is executed from some state or is
bottom all over, the start is entered with a state that covers the initial one, and what an executed
node sends over an edge is covered at the far end. -/
structure Solution (a : Analysis S Pre) (r : AnalysisResult S) : Prop where
  size_eq : r.nodes.size = a.graph.size
  executed : ∀ {n : Nat}, 0 < r.iterations n → ∃ s, a.execute n s = .ok (r.statesAt n)
  untouched : ∀ {n : Nat} {node : Node}, a.graph.nodes[n]? = some node → r.iterations n = 0 →
    (r.statesAt n).length = node.statements.length + 1 ∧
      ∀ s ∈ r.statesAt n, Extremal.isBottom s = true
  start : ∃ s, a.incoming? (r.statesAt a.start) = some s ∧ Domain.le a.initial s = true
  edges : ∀ e ∈ a.graph.edges, 0 < r.iterations (a.origin e) →
    ∃ t u s, a.outgoing? (r.statesAt (a.origin e)) = some t ∧ a.traverse e t = .ok u ∧
      a.incoming? (r.statesAt (a.destination e)) = some s ∧ Domain.le u s = true

variable {p p' : Progress S} {r : AnalysisResult S}

/-- Where no node waits, what was computed is a solution. -/
theorem finish_solution (m : Monotonic P) (hg : a.graph.Wired) (hstage : a.Stage p)
    (hqueue : p.queue = []) : a.Solution (a.finish p) := by
  have hsettled := hstage.settled m.upperBounds hg
  refine ⟨Array.size_mapIdx, ?_, ?_, finish_start hg hsettled hqueue,
    fun e he => finish_edges hg hsettled hqueue he⟩
  · intro n hcount
    obtain ⟨found, s, -, hexecute, hstates⟩ := finish_computed hsettled hcount
    exact ⟨s, hstates ▸ hexecute⟩
  · intro n node hnode hcount
    refine ⟨finish_length hsettled hnode, ?_⟩
    rw [finish_iterations (Array.getElem?_eq_some_iff.1 hnode).1, Progress.iterations] at hcount
    rw [finish_statesAt hnode]
    cases hat : p.at? n with
    | none =>
        intro s hs
        rw [List.eq_of_mem_replicate hs]
        exact m.isBottom_bottom _
    | some found =>
        have := (hsettled.computed hat).1
        simp only [hat, Option.map_some, Option.getD_some] at hcount
        omega

/-- The states of every computed node are below those of a solution, which executes the node too. -/
def Within (p : Progress S) (r : AnalysisResult S) : Prop :=
  ∀ n found, p.at? n = some found → 0 < r.iterations n ∧ StatesLe found.states (r.statesAt n)

/-- A solution of `b` in terms of `a`: the two differ in what is known beforehand alone. -/
theorem Relaxes.solution (h : Relaxes P a b) (hr : b.Solution r) :
    (∃ s, a.incoming? (r.statesAt a.start) = some s ∧ Domain.le a.initial s = true) ∧
    (∀ e ∈ a.graph.edges, 0 < r.iterations (a.origin e) →
      ∃ t u s, a.outgoing? (r.statesAt (a.origin e)) = some t ∧ b.traverse e t = .ok u ∧
        a.incoming? (r.statesAt (a.destination e)) = some s ∧ Domain.le u s = true) ∧
    ∀ {n s}, b.execute n s = .ok (r.statesAt n) → a.incoming? (r.statesAt n) = some s := by
  obtain ⟨g, direction, settings, known, initial⟩ := a
  obtain ⟨g', direction', settings', known', initial'⟩ := b
  obtain rfl : g' = g := h.graph_eq
  obtain rfl : direction' = direction := h.direction_eq
  obtain rfl : initial' = initial := h.initial_eq
  exact ⟨hr.start, hr.edges, fun hexecute => (execute_surround hexecute).2⟩

theorem Relaxes.length_eq (h : Relaxes P a b) (hr : b.Solution r) {node : Node}
    (hnode : a.graph.nodes[n]? = some node) :
    (r.statesAt n).length = node.statements.length + 1 := by
  rcases Nat.eq_zero_or_pos (r.iterations n) with hcount | hcount
  · exact (hr.untouched (h.graph_eq ▸ hnode) hcount).1
  · obtain ⟨t, hexecute⟩ := hr.executed hcount
    rw [(execute_surround hexecute).1.length_eq, h.graph_eq, Graph.statementsAt_eq hnode]

/-- A node of a solution is entered with some state, which is bottom unless the node is executed. -/
theorem Relaxes.exists_incoming (h : Relaxes P a b) (hr : b.Solution r) {node : Node}
    (hnode : a.graph.nodes[n]? = some node) :
    ∃ t, a.incoming? (r.statesAt n) = some t ∧
      (Extremal.isBottom t = true ∨ (0 < r.iterations n ∧ b.execute n t = .ok (r.statesAt n))) := by
  rcases Nat.eq_zero_or_pos (r.iterations n) with hcount | hcount
  · obtain ⟨hlength, hbottom⟩ := hr.untouched (h.graph_eq ▸ hnode) hcount
    have hne : r.statesAt n ≠ [] := List.ne_nil_of_length_pos (hlength ▸ Nat.succ_pos _)
    obtain ⟨t, ht⟩ : ∃ t, a.incoming? (r.statesAt n) = some t := by
      unfold incoming?
      split
      · exact ⟨_, List.head?_eq_some_head hne⟩
      · exact ⟨_, List.getLast?_eq_some_getLast hne⟩
    exact ⟨t, ht, Or.inl (hbottom t (mem_of_incoming? ht))⟩
  · obtain ⟨t, hexecute⟩ := hr.executed hcount
    exact ⟨t, (h.solution hr).2.2 hexecute, Or.inr ⟨hcount, hexecute⟩⟩

section Below

variable (m : Monotonic P) (hrelaxes : Relaxes P a b) (hr : b.Solution r)
  (hP : ∀ n, ∀ s ∈ r.statesAt n, P s) (hinitial : P a.initial) (hwithin : Within p r)
  (hstored : Stored P p) (ht : a.incoming? (r.statesAt n) = some t)

include m hrelaxes hr ht in
theorem own_le : Domain.le (a.own n) t = true := by
  unfold own
  split
  · rename_i hstart
    obtain ⟨s, hs, hle⟩ := (hrelaxes.solution hr).1
    rw [← hstart, ht] at hs
    cases hs
    exact hle
  · exact m.bottom_le _ (m.isBottom_bottom _)

include m hwithin ht in
theorem previous_le : Domain.le (a.previous p n) t = true := by
  unfold previous
  cases hfound : (p.at? n).bind fun r => a.incoming? r.states with
  | none => exact m.bottom_le _ (m.isBottom_bottom _)
  | some s =>
      obtain ⟨found, hat, hs⟩ := Option.bind_eq_some_iff.1 hfound
      exact incoming?_le (hwithin n found hat).2 hs ht

include m hrelaxes hr hP hwithin hstored ht in
/-- What is carried over an edge is below what a solution has at its far end. -/
theorem joinOver_le (hg : a.graph.Wired) {e : Edge} (he : e ∈ a.arriving n) {u : S} (hs : P s)
    (hle : Domain.le s t = true) (hu : a.joinOver p s e = .ok u) :
    P u ∧ Domain.le u t = true := by
  obtain ⟨hedge, rfl⟩ := (mem_arriving hg).1 he
  unfold joinOver at hu
  split at hu
  · obtain rfl := pure_eq_ok.1 hu
    exact ⟨hs, hle⟩
  · rename_i v hv
    obtain ⟨found, hat, hv⟩ := Option.bind_eq_some_iff.1 hv
    obtain ⟨w, hw, hjoin⟩ := bind_eq_ok.1 hu
    obtain ⟨hcount, hstates⟩ := hwithin _ found hat
    obtain ⟨v', w', t', hv', hw', ht', hle'⟩ := (hrelaxes.solution hr).2.1 e hedge hcount
    obtain rfl := Option.some.inj (ht.symm.trans ht')
    have hPv := hstored _ found hat v (mem_of_outgoing? hv)
    have hPw := (traverse_concludes m.toClosed e hPv).result hw
    refine ⟨(m.join hs hPw).result hjoin, ?_⟩
    refine m.join_le hs hPw (hP _ t (mem_of_incoming? ht)) hjoin hle ?_
    exact m.upperBounds.le_trans (traverse_le m hrelaxes e hPv (hP _ v' (mem_of_outgoing? hv'))
      (outgoing?_le hstates hv hv') hw hw') hle'

include m hrelaxes hr hP hinitial hwithin hstored ht in
theorem entering_le (hg : a.graph.Wired) {node : Node} (hs : a.entering p n node = .ok s) :
    Domain.le s t = true := by
  have hfold : ∀ {edges : List Edge} {u v : S}, (∀ e ∈ edges, e ∈ a.arriving n) → P u →
      Domain.le u t = true → edges.foldlM (a.joinOver p) u = .ok v →
      P v ∧ Domain.le v t = true := by
    intro edges
    induction edges with
    | nil =>
        intro u v _ hu hle hv
        obtain rfl := pure_eq_ok.1 hv
        exact ⟨hu, hle⟩
    | cons e edges ih =>
        intro u v hedges hu hle hv
        rw [List.foldlM_cons] at hv
        obtain ⟨w, hw, hv⟩ := bind_eq_ok.1 hv
        obtain ⟨hPw, hlew⟩ := joinOver_le m hrelaxes hr hP hwithin hstored ht hg
          (hedges e List.mem_cons_self) hu hle hw
        exact ih (fun f hf => hedges f (List.mem_cons_of_mem _ hf)) hPw hlew hv
  unfold entering at hs
  obtain ⟨u, hu, hs⟩ := bind_eq_ok.1 hs
  obtain ⟨hPu, hleu⟩ := hfold (fun _ he => he) (own_closed m.toClosed hinitial n)
    (own_le m hrelaxes hr ht) hu
  split at hs
  · exact m.widen_le (previous_closed m.toClosed hinitial hstored n) hPu
      (hP n t (mem_of_incoming? ht)) hs (previous_le m hwithin ht) hleu
  · obtain rfl := pure_eq_ok.1 hs
    exact hleu

end Below

/-- A run stays below every solution. A node is executed only if something arrives there, and then the
solution executes it from a larger state. -/
theorem Stage.within (m : Monotonic P) (hrelaxes : Relaxes P a b) (hr : b.Solution r)
    (hP : ∀ n, ∀ s ∈ r.statesAt n, P s) (hinitial : P a.initial) (hg : a.graph.Wired)
    (hstage : a.Stage p) : Within p r := by
  induction hstage with
  | begin =>
      intro n found hat
      rw [begin_at?] at hat
      cases hat
  | @visit p p' n rest hstage hqueue hvisit ih =>
      have htaken : Within (p.taken rest) r := ih
      have hstored : Stored P p := hstage.stored m.toClosed hinitial
      cases visit_cases hvisit with
      | missing _ => exact htaken
      | stable _ _ _ => exact htaken
      | @recomputed node s states hnode henter hle hexecute _ =>
          have hn : n < (p.taken rest).stored.size :=
            hstage.size ▸ (Array.getElem?_eq_some_iff.1 hnode).1
          have hs : P s := (entering_concludes m.toClosed hinitial hstored n node).result henter
          obtain ⟨t, ht, hcase⟩ := hrelaxes.exists_incoming hr hnode
          have hst := entering_le m hrelaxes hr hP hinitial htaken hstored ht hg henter
          rcases hcase with hbottom | ⟨hcount, hexecute'⟩
          · -- bottom is covered at every visit
            rw [m.bottom_le _ (m.extremes.bottom_of_le hst hbottom)] at hle
            cases hle
          · intro k found hat
            rw [at?_recorded a hn] at hat
            by_cases hk : k = n
            · subst hk
              rw [if_pos rfl] at hat
              cases hat
              exact ⟨hcount, execute_le m hrelaxes hs (hP k t (mem_of_incoming? ht)) hst hexecute
                hexecute'⟩
            · rw [if_neg hk] at hat
              exact htaken k found hat

/-- A result is below every solution, state by state. -/
theorem finish_le (m : Monotonic P) (hrelaxes : Relaxes P a b) (hr : b.Solution r)
    (hP : ∀ n, ∀ s ∈ r.statesAt n, P s) (hinitial : P a.initial) (hg : a.graph.Wired)
    (hstage : a.Stage p) (n : Nat) : StatesLe ((a.finish p).statesAt n) (r.statesAt n) := by
  cases hnode : a.graph.nodes[n]? with
  | none =>
      have hn : r.nodes[n]? = none := by
        rw [Array.getElem?_eq_none_iff, hr.size_eq, hrelaxes.graph_eq]
        exact Array.getElem?_eq_none_iff.1 hnode
      simp [AnalysisResult.statesAt, finish, hnode, hn]
  | some node =>
      rw [finish_statesAt hnode]
      cases hat : p.at? n with
      | none =>
          change StatesLe (List.replicate (node.statements.length + 1) _) _
          rw [← hrelaxes.length_eq hr hnode]
          exact replicate_bottom_le m _ _
      | some found => exact (hstage.within m hrelaxes hr hP hinitial hg n found hat).2

end Analysis

end FlowAnalysis
