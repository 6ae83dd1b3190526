import FlowAnalysis.Proofs.Analysis.Stage
import FlowAnalysis.Proofs.Domain
import FlowAnalysis.Proofs.Program.Alternatives

/-!
Properties that every state of a run has. If a property of states is kept by joins, widenings and
whatever single expressions do to a state, then it is kept by statements, by guards and by the execution
of a whole node, and so every state that a run stores has it. Where these operations fail with errors of
some kind only, so does every visit, unless it passes the cap on iterations.
-/

namespace FlowAnalysis

/-- A property of states that every operation of the domain keeps, unless it fails with an error of
some kind. Errors for which the program is at fault are of that kind, for translation may fail with any
of them. Single expressions are applied to states that are not bottom alone. -/
structure StateDomain.Closed {S Pre : Type} [StateDomain S Pre] (E : AnalysisError → Prop)
    (P : S → Prop) : Prop where
  semantic : ∀ e : AnalysisError, e.IsSemantic → E e
  bottom : ∀ {s : S}, P s → P (Extremal.bottom s)
  withResult : ∀ {s : S} (result : Alternatives), P s → P (withResult s result)
  before : ∀ {s : S} (point : Point) (known : Option Pre), P s → P (before s point known)
  join : ∀ {s t : S}, P s → P t → Concludes E P (Domain.join s t)
  widen : ∀ {s t : S}, P s → P t → Concludes E P (Domain.widen s t)
  assignOne : ∀ {s : S} (left right : Expr), P s → Extremal.isBottom s = false →
    Concludes E P (assignOne s left right)
  assumeOne : ∀ {s : S} (condition : Expr), P s → Extremal.isBottom s = false →
    Concludes E P (assumeOne s condition)
  substituteOne : ∀ {s : S} (left right : Expr), P s → Extremal.isBottom s = false →
    Concludes E P (substituteOne s left right)
  outputOne : ∀ {s : S} (value : Expr), P s → Extremal.isBottom s = false →
    Concludes E P (outputOne s value)
  enterIf : ∀ {s : S}, P s → P (enterIf s)
  exitIf : ∀ {s : S}, P s → P (exitIf s)
  enterLoop : ∀ {s : S}, P s → P (enterLoop s)
  exitLoop : ∀ {s : S}, P s → P (exitLoop s)

variable {S Pre : Type} [StateDomain S Pre] {E : AnalysisError → Prop} {P : S → Prop}

/-- Applying a transformer once for each item covers what it gives for any of them. -/
theorem StateDomain.joinEach_covers (laws : Domain.UpperBounds S) {s u : S} {ι : Type}
    {items : List ι} {apply : S → ι → Outcome S} (hproper : Extremal.isBottom s = false)
    (h : joinEach s items apply = .ok u) {item : ι} (hitem : item ∈ items) :
    ∃ t joined, apply s item = .ok t ∧ Domain.le t joined = true ∧ u = cleared joined := by
  have hfold : ∀ {rest : List ι} {start joined : S},
      rest.foldlM (fun joined item => do
        let outcome ← apply s item
        Domain.join joined outcome) start = .ok joined →
      Domain.le start joined = true ∧
        ∀ item ∈ rest, ∃ t, apply s item = .ok t ∧ Domain.le t joined = true := by
    intro rest
    induction rest with
    | nil =>
        intro start joined h
        obtain rfl := pure_eq_ok.1 h
        exact ⟨laws.le_refl _, fun item hitem => absurd hitem List.not_mem_nil⟩
    | cons first rest ih =>
        intro start joined h
        rw [List.foldlM_cons] at h
        obtain ⟨next, hnext, h⟩ := bind_eq_ok.1 h
        obtain ⟨outcome, houtcome, hjoin⟩ := bind_eq_ok.1 hnext
        obtain ⟨hle, hrest⟩ := ih h
        refine ⟨laws.le_trans (laws.le_join_left hjoin) hle, fun item hitem => ?_⟩
        rcases List.mem_cons.1 hitem with rfl | hitem
        · exact ⟨outcome, houtcome, laws.le_trans (laws.le_join_right hjoin) hle⟩
        · exact hrest item hitem
  unfold joinEach at h
  split at h
  · exact absurd hitem List.not_mem_nil
  · rw [hproper] at h
    obtain ⟨outcome, houtcome, h⟩ := bind_eq_ok.1 h
    obtain ⟨joined, hjoined, h⟩ := bind_eq_ok.1 h
    obtain rfl := pure_eq_ok.1 h
    obtain ⟨hle, hrest⟩ := hfold hjoined
    rcases List.mem_cons.1 hitem with rfl | hitem
    · exact ⟨outcome, joined, houtcome, hle, rfl⟩
    · obtain ⟨t, ht, hle⟩ := hrest item hitem
      exact ⟨t, joined, ht, hle, rfl⟩

namespace StateDomain.Closed

variable {s : S}

theorem joinEach (h : Closed E P) (hs : P s) {ι : Type} {items : List ι}
    {apply : S → ι → Outcome S}
    (happly : Extremal.isBottom s = false → ∀ item ∈ items, Concludes E P (apply s item)) :
    Concludes E P (joinEach s items apply) := by
  unfold StateDomain.joinEach
  split
  · exact h.withResult _ hs
  · rename_i first rest
    split
    · exact h.withResult _ hs
    · rename_i hproper
      have happly := happly (Bool.eq_false_iff.2 hproper)
      refine (happly first List.mem_cons_self).bind fun outcome houtcome => ?_
      refine (Concludes.foldlM houtcome fun joined item hjoined hitem => ?_).bind fun joined hjoined =>
        h.withResult _ hjoined
      exact (happly item (List.mem_cons_of_mem _ hitem)).bind fun next hnext =>
        h.join hjoined hnext

theorem perform (h : Closed E P) (hs : P s) (direction : Direction) (statement : Stmt) :
    Concludes E P (perform direction statement s) := by
  have haccess : ∀ statement : Stmt,
      Concludes E P (do let found ← statement.alternatives; return StateDomain.withResult s found) :=
    fun statement => (statement.alternatives_meets.weaken h.semantic).bind fun found _ => h.withResult found hs
  have houtput : ∀ values : List Stmt,
      Concludes E P (do let found ← Stmt.alternativesOf values; StateDomain.output s found) :=
    fun values => ((Stmt.alternativesOf_meets values).weaken h.semantic).bind fun found _ =>
      h.joinEach hs fun hproper item _ => h.outputOne item hs hproper
  cases statement with
  | assign point left right =>
      refine (left.alternatives_meets.weaken h.semantic).bind fun found _ => ?_
      refine (right.alternatives_meets.weaken h.semantic).bind fun found' _ => ?_
      cases direction with
      | forward => exact h.joinEach hs fun hproper pair _ => h.assignOne _ _ hs hproper
      | backward => exact h.joinEach hs fun hproper pair _ => h.substituteOne _ _ hs hproper
  | call point name type arguments =>
      rw [StateDomain.perform]
      split
      · exact houtput arguments
      · exact haccess _
  | ret point values => exact houtput values
  | raise point => exact h.bottom hs
  | literal _ _ => exact haccess _
  | var _ _ => exact haccess _
  | item _ _ _ _ => exact haccess _
  | slice _ _ _ _ _ _ => exact haccess _
  | list _ _ _ => exact haccess _
  | set _ _ _ => exact haccess _
  | dict _ _ _ _ => exact haccess _
  | field _ _ _ _ => exact haccess _

theorem filter (h : Closed E P) (hs : P s) : Concludes E P (filter s) :=
  h.joinEach hs fun hproper condition _ => h.assumeOne condition hs hproper

end StateDomain.Closed

namespace Analysis

variable {a : Analysis S Pre} {p p' : Progress S} {n : Nat} {s : S}

open StateDomain (Closed)

theorem enterScope_closed (h : Closed E P) (direction : Direction) (kind : EdgeKind) (hs : P s) :
    P (enterScope direction kind s) := by
  unfold enterScope
  split
  · exact h.enterIf hs
  · exact h.enterLoop hs
  · exact h.enterIf hs
  · exact h.enterLoop hs
  · exact hs

theorem exitScope_closed (h : Closed E P) (direction : Direction) (kind : EdgeKind) (hs : P s) :
    P (exitScope direction kind s) := by
  unfold exitScope
  split
  · exact h.exitIf hs
  · exact h.exitLoop hs
  · exact h.exitIf hs
  · exact h.exitLoop hs
  · exact hs

theorem traverse_concludes (h : Closed E P) (e : Edge) (hs : P s) : Concludes E P (a.traverse e s) := by
  have henter := enterScope_closed h a.direction e.kind hs
  refine Concludes.bind ?_ fun t ht => exitScope_closed h a.direction e.kind ht
  unfold passGuard
  split
  · exact henter
  · exact (h.perform (h.before _ _ henter) _ _).bind fun t ht => h.filter ht

theorem executeForward_concludes (h : Closed E P) {i : Nat} {statements : List Stmt} (hs : P s) :
    Concludes E (fun states => ∀ s ∈ states, P s) (a.executeForward n i statements s) := by
  induction statements generalizing i s with
  | nil => exact List.forall_mem_singleton.2 hs
  | cons statement rest ih =>
      rw [executeForward]
      refine (h.perform (h.before _ _ hs) _ _).bind fun next hnext => ?_
      exact (ih hnext).bind fun later hlater => List.forall_mem_cons.2 ⟨hs, hlater⟩

theorem executeBackward_concludes (h : Closed E P) {i : Nat} {statements : List Stmt} (hs : P s) :
    Concludes E (fun states => ∀ s ∈ states, P s) (a.executeBackward n i statements s) := by
  induction statements generalizing i with
  | nil => exact List.forall_mem_singleton.2 hs
  | cons statement rest ih =>
      rw [executeBackward]
      refine ih.bind fun later hlater => ?_
      have hhead : P (later.headD s) := by
        cases later with
        | nil => exact hs
        | cons t later => exact hlater t List.mem_cons_self
      exact (h.perform (h.before _ _ hhead) _ _).bind fun previous hprevious =>
        List.forall_mem_cons.2 ⟨hprevious, hlater⟩

theorem execute_concludes (h : Closed E P) (hs : P s) :
    Concludes E (fun states => ∀ s ∈ states, P s) (a.execute n s) := by
  unfold execute
  split
  · exact executeForward_concludes h hs
  · exact executeBackward_concludes h hs

/-! ### Stages -/

/-- Every state that is stored has the property. -/
def Stored (P : S → Prop) (p : Progress S) : Prop :=
  ∀ n r, p.at? n = some r → ∀ s ∈ r.states, P s

omit [StateDomain S Pre] in
theorem mem_of_outgoing? {states : List S} (h : a.outgoing? states = some s) : s ∈ states := by
  unfold outgoing? at h
  split at h
  · exact List.mem_of_getLast? h
  · exact List.mem_of_head? h

omit [StateDomain S Pre] in
theorem mem_of_incoming? {states : List S} (h : a.incoming? states = some s) : s ∈ states := by
  unfold incoming? at h
  split at h
  · exact List.mem_of_head? h
  · exact List.mem_of_getLast? h

theorem own_closed (h : Closed E P) (hinitial : P a.initial) (n : Nat) : P (a.own n) := by
  unfold own
  split
  · exact hinitial
  · exact h.bottom hinitial

theorem previous_closed (h : Closed E P) (hinitial : P a.initial) (hstored : Stored P p) (n : Nat) :
    P (a.previous p n) := by
  unfold previous
  cases hfound : (p.at? n).bind fun r => a.incoming? r.states with
  | none => exact h.bottom hinitial
  | some s =>
      obtain ⟨r, hr, hs⟩ := Option.bind_eq_some_iff.1 hfound
      exact hstored n r hr s (mem_of_incoming? hs)

theorem joinOver_concludes (h : Closed E P) (hstored : Stored P p) (hs : P s) (e : Edge) :
    Concludes E P (a.joinOver p s e) := by
  unfold joinOver
  split
  · exact hs
  · rename_i t ht
    obtain ⟨r, hr, ht⟩ := Option.bind_eq_some_iff.1 ht
    have hout : P t := hstored _ r hr t (mem_of_outgoing? ht)
    exact (traverse_concludes h e hout).bind fun u hu => h.join hs hu

theorem arrival_concludes (h : Closed E P) (hinitial : P a.initial) (hstored : Stored P p) (n : Nat) :
    Concludes E P (a.arrival p n) :=
  Concludes.foldlM (own_closed h hinitial n) fun _ e hs _ => joinOver_concludes h hstored hs e

theorem entering_concludes (h : Closed E P) (hinitial : P a.initial) (hstored : Stored P p) (n : Nat)
    (node : Node) : Concludes E P (a.entering p n node) := by
  refine (arrival_concludes h hinitial hstored n).bind fun s hs => ?_
  split
  · exact h.widen (previous_closed h hinitial hstored n) hs
  · exact hs

theorem Stage.stored (h : Closed E P) (hinitial : P a.initial) (hstage : a.Stage p) :
    Stored P p := by
  induction hstage with
  | begin =>
      intro n r hr
      rw [begin_at?] at hr
      cases hr
  | @visit p p' n rest hstage hqueue hvisit ih =>
      have htaken : Stored P (p.taken rest) := ih
      cases visit_cases hvisit with
      | missing _ => exact htaken
      | stable _ _ _ => exact htaken
      | recomputed hnode henter _ hexecute _ =>
          have hn : n < (p.taken rest).stored.size :=
            hstage.size ▸ (Array.getElem?_eq_some_iff.1 hnode).1
          have hs := (entering_concludes h hinitial htaken n _).result henter
          intro m r hr
          rw [at?_recorded a hn] at hr
          by_cases hm : m = n
          · rw [if_pos hm] at hr
            cases hr
            exact (execute_concludes h hs).result hexecute
          · rw [if_neg hm] at hr
            exact htaken m r hr

/-- Every state of a result has the property. -/
theorem finish_closed (h : Closed E P) (hinitial : P a.initial) (hstored : Stored P p) :
    ∀ s ∈ (a.finish p).statesAt n, P s := by
  cases hnode : a.graph.nodes[n]? with
  | none =>
      intro s hs
      simp [AnalysisResult.statesAt, finish, hnode] at hs
  | some node =>
      rw [finish_statesAt hnode]
      cases hat : p.at? n with
      | none =>
          intro s hs
          rw [List.eq_of_mem_replicate hs]
          exact h.bottom hinitial
      | some r => exact hstored n r hat

/-- A visit fails only with an error of the domain or because the cap on iterations is passed. -/
theorem visit_error (h : Closed E P) (hinitial : P a.initial) (hstored : Stored P p)
    {e : AnalysisError} (hvisit : a.visit p n = .error e) :
    E e ∨ a.exceeds (p.iterations n + 1) = true ∧ e = .notConverged n (p.iterations n + 1) := by
  unfold visit at hvisit
  split at hvisit
  · cases hvisit
  · rename_i node hnode
    have hentering := entering_concludes h hinitial hstored n node
    rcases bind_eq_error.1 hvisit with henter | ⟨s, henter, hvisit⟩
    · exact Or.inl (hentering.error henter)
    · split at hvisit
      · cases hvisit
      · rcases bind_eq_error.1 hvisit with hexecute | ⟨states, -, hrecord⟩
        · exact Or.inl ((execute_concludes h (hentering.result henter)).error hexecute)
        · dsimp only [record] at hrecord
          split at hrecord
          · rename_i hcap
            exact Or.inr ⟨hcap, (Except.error.inj hrecord).symm⟩
          · cases hrecord

end Analysis

end FlowAnalysis
