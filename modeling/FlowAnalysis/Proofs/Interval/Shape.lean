import FlowAnalysis.Proofs.Analysis.Closure
import FlowAnalysis.Proofs.Interval.State

/-!
The shape of interval states. Every state of a run has the identifiers with which the run started, in
their order, so that stores can always be combined; and a state that is not bottom has a value for each
of them, lengths included. Both are kept by all operations, which fail only if the program is at fault.
-/

namespace FlowAnalysis

/-! ### Failures of evaluation -/

mutual

theorem evaluate_meets (env : Environment) : ∀ e : Expr, Meets (fun _ => True) (evaluate env e)
  | .literal value => by
      rw [evaluate]
      split <;> trivial
  | .var _ => trivial
  | .input _ => trivial
  | .list _ _ => trivial
  | .set _ _ => trivial
  | .dict _ _ _ => trivial
  | .range _ _ _ => trivial
  | .length target => length_meets env target
  | .keys _ => trivial
  | .values _ => trivial
  | .field _ _ _ => trivial
  | .item _ _ key => by
      rw [evaluate]
      exact (evaluate_meets env key).bind fun _ _ => trivial
  | .slice _ _ _ _ _ => trivial
  | .signed _ sign operand => by
      rw [evaluate]
      refine (evaluate_meets env operand).bind fun _ _ => ?_
      cases sign <;> trivial
  | .not operand => by
      rw [evaluate]
      exact (evaluate_meets env operand).bind fun _ _ => trivial
  | .arithmetic _ left _ right => by
      rw [evaluate]
      split
      · exact (evaluate_meets env left).bind fun _ _ =>
          (evaluate_meets env right).bind fun _ _ => trivial
      · trivial
  | .connective left _ right => by
      rw [evaluate]
      exact (evaluate_meets env left).bind fun _ _ =>
        (evaluate_meets env right).bind fun _ _ => trivial
  | .compare left _ right => by
      rw [evaluate]
      split
      · exact (evaluate_meets env left).bind fun _ _ =>
          (evaluate_meets env right).bind fun _ _ => trivial
      · trivial

theorem length_meets (env : Environment) : ∀ e : Expr, Meets (fun _ => True) (length env e)
  | .var _ => trivial
  | .literal value => by cases value <;> trivial
  | .list _ _ => trivial
  | .set _ _ => trivial
  | .dict _ _ _ => trivial
  | .range start stop step => by
      rw [length]
      exact (evaluate_meets env start).bind fun _ _ => (evaluate_meets env stop).bind fun _ _ =>
        (evaluate_meets env step).bind fun _ _ => trivial
  | .keys target => length_meets env target
  | .values target => length_meets env target
  | .slice _ target _ _ _ => by
      rw [length]
      exact (length_meets env target).bind fun _ _ => trivial
  | .arithmetic type left op right => by
      cases op with
      | add =>
          rw [length]
          split
          · exact (length_meets env left).bind fun _ _ =>
              (length_meets env right).bind fun _ _ => trivial
          · trivial
      | _ => trivial
  | .input _ => trivial
  | .length _ => trivial
  | .field _ _ _ => trivial
  | .item _ _ _ => trivial
  | .signed _ _ _ => trivial
  | .not _ => trivial
  | .connective _ _ _ => trivial
  | .compare _ _ _ => trivial

end

theorem evaluateJoined_meets (env : Environment) (items : List Expr) :
    Meets (fun _ => True) (evaluateJoined env items) :=
  Concludes.foldlM trivial fun _ item _ _ => (evaluate_meets env item).bind fun _ _ => trivial

theorem candidates?_meets (env : Environment) (e : Expr) :
    Meets (fun _ => True) (candidates? env e) := by
  unfold candidates?
  split
  · exact (evaluate_meets env _).bind fun _ _ => (evaluate_meets env _).bind fun _ _ =>
      (evaluate_meets env _).bind fun _ _ => trivial
  · trivial
  · trivial
  · trivial
  · split
    · trivial
    · exact (evaluateJoined_meets env _).bind fun _ _ => trivial
  · split
    · trivial
    · exact (evaluateJoined_meets env _).bind fun _ _ => trivial
  · trivial

/-! ### Refinements -/

/-- Only numbers and lengths of the given variables are constrained. -/
def Refinement.Over (vars : List Identifier) : Refinement → Prop
  | infeasible => True
  | constrain ranges => ∀ x ∈ ranges.keys, ∃ v ∈ vars, x ∈ v.scalars

namespace Refinement

variable {vars others : List Identifier} {p q : Refinement}

theorem unconstrained_over : unconstrained.Over vars := fun _ hx => absurd hx List.not_mem_nil

theorem Over.mono (hp : p.Over vars) (hsubset : vars ⊆ others) : p.Over others := by
  cases p with
  | infeasible => trivial
  | constrain ranges =>
      intro x hx
      obtain ⟨v, hv, hxv⟩ := hp x hx
      exact ⟨v, hsubset hv, hxv⟩

theorem single_over {target : Option Identifier} {range : Interval}
    (h : ∀ x, target = some x → ∃ v ∈ vars, x ∈ v.scalars) : (single target range).Over vars := by
  unfold single
  split
  · trivial
  · cases target with
    | none => exact unconstrained_over
    | some x =>
        intro y hy
        have hempty : x ∉ (OrderedMap.empty : OrderedMap Identifier Interval).keys := List.not_mem_nil
        rw [OrderedMap.keys_insert, if_neg hempty] at hy
        obtain rfl : y = x := List.mem_singleton.1 hy
        exact h y rfl

theorem narrow_over {ranges : OrderedMap Identifier Interval} {rest : List (Identifier × Interval)}
    (hranges : (constrain ranges).Over vars)
    (hrest : ∀ x ∈ rest.map Prod.fst, ∃ v ∈ vars, x ∈ v.scalars) : (narrow ranges rest).Over vars := by
  induction rest generalizing ranges with
  | nil => exact hranges
  | cons entry rest ih =>
      obtain ⟨hfirst, hrest⟩ := List.forall_mem_cons.1 hrest
      have hstep : ∀ merged : Interval,
          (if merged.isBottom then infeasible else narrow (ranges.insert entry.1 merged) rest).Over vars := by
        intro merged
        split
        · trivial
        · refine ih (fun y hy => ?_) hrest
          rw [OrderedMap.keys_insert] at hy
          split at hy
          · exact hranges y hy
          · rcases List.mem_append.1 hy with hy | hy
            · exact hranges y hy
            · exact List.mem_singleton.1 hy ▸ hfirst
      rw [narrow]
      exact hstep _

theorem and_over (hp : p.Over vars) (hq : q.Over vars) : (p.and q).Over vars := by
  cases p with
  | infeasible => trivial
  | constrain ranges =>
      cases q with
      | infeasible => trivial
      | constrain others => exact narrow_over hp hq

theorem or_over (hp : p.Over vars) (hq : q.Over vars) : (p.or q).Over vars := by
  cases p with
  | infeasible => exact hq
  | constrain ranges =>
      cases q with
      | infeasible => exact hp
      | constrain others =>
          intro x hx
          obtain ⟨range, hrange⟩ := OrderedMap.mem_keys_iff.1 hx
          rw [OrderedMap.get?_filterMap] at hrange
          obtain ⟨first, hfirst, -⟩ := Option.bind_eq_some_iff.1 hrange
          exact hp x (OrderedMap.mem_keys_iff.2 ⟨first, hfirst⟩)

theorem connective_over (op : Connective) (hp : p.Over vars) (hq : q.Over vars) :
    (connective op p q).Over vars := by
  cases op with
  | and => exact and_over hp hq
  | or => exact or_over hp hq

end Refinement

theorem Identifier.mem_scalars_self {x : Identifier} (h : x.type.isNumeric = true) : x ∈ x.scalars := by
  simp [scalars, h]

theorem Identifier.lengthOf_mem_scalars {x : Identifier} (h : x.hasLength = true) :
    x.lengthOf ∈ x.scalars := by
  simp [scalars, h]

/-- What a condition on an expression can narrow is a variable that the expression reads, or the length
of one. -/
theorem Expr.mem_scalars_of_refinable? {e : Expr} {x : Identifier} (h : e.refinable? = some x) :
    ∃ v ∈ e.occurrences, x ∈ v.scalars := by
  unfold refinable? at h
  split at h
  · rename_i v
    obtain ⟨hnumeric, hv⟩ := Option.ite_none_right_eq_some.1 h
    obtain rfl := Option.some.inj hv
    exact ⟨v, List.mem_singleton_self v, Identifier.mem_scalars_self hnumeric⟩
  · rename_i v
    obtain ⟨hlength, hv⟩ := Option.ite_none_right_eq_some.1 h
    obtain rfl := Option.some.inj hv
    exact ⟨v, List.mem_singleton_self v, Identifier.lengthOf_mem_scalars hlength⟩
  · cases h

theorem refineNumeric_meets (env : Environment) (left : Expr) (op : Comparison) (right : Expr) :
    Meets (Refinement.Over (left.occurrences ++ right.occurrences)) (refineNumeric env left op right) := by
  unfold refineNumeric
  split
  · refine (evaluate_meets env left).bind fun _ _ => (evaluate_meets env right).bind fun _ _ => ?_
    split
    · trivial
    · dsimp only
      split
      · trivial
      · exact Refinement.and_over
          ((Refinement.single_over fun _ => Expr.mem_scalars_of_refinable?).mono (List.subset_append_left _ _))
          ((Refinement.single_over fun _ => Expr.mem_scalars_of_refinable?).mono (List.subset_append_right _ _))
  · exact Refinement.unconstrained_over

theorem refineCompare_meets (env : Environment) (left : Expr) (op : Comparison) (right : Expr) :
    Meets (Refinement.Over (left.occurrences ++ right.occurrences)) (refineCompare env left op right) := by
  have hnumeric := refineNumeric_meets env left op right
  cases op with
  | isIn =>
      refine (candidates?_meets env right).bind fun found _ => ?_
      cases found with
      | none => trivial
      | some candidates =>
          dsimp only
          split
          · exact (evaluate_meets env left).bind fun _ _ =>
              (Refinement.single_over fun _ => Expr.mem_scalars_of_refinable?).mono
                (List.subset_append_left _ _)
          · refine Concludes.pure ?_
            split
            · trivial
            · exact Refinement.unconstrained_over
  | notIn => exact Refinement.unconstrained_over
  | is => exact Refinement.unconstrained_over
  | isNot => exact Refinement.unconstrained_over
  | _ => exact hnumeric

theorem refineTruth_over {vars : List Identifier} (value : Interval) (answer : Bool) :
    (refineTruth value answer).Over vars := by
  have hstep : ∀ truth : Interval,
      (if truth = .falsity then Refinement.infeasible else .unconstrained).Over vars := by
    intro truth
    split
    · trivial
    · exact Refinement.unconstrained_over
  exact hstep _

theorem refineVariable_meets (env : Environment) (x : Identifier) (answer : Bool) :
    Meets (Refinement.Over [x]) (refineVariable env x answer) := by
  have hself : x.type.isNumeric = true → ∀ y, some x = some y → ∃ v ∈ [x], y ∈ v.scalars := by
    rintro hnumeric y ⟨⟩
    exact ⟨x, List.mem_singleton_self x, Identifier.mem_scalars_self hnumeric⟩
  refine (evaluate_meets env (.var x)).bind fun value _ => ?_
  dsimp only
  split
  · split
    · trivial
    · split
      · rename_i hbool
        exact Concludes.pure (Refinement.single_over (hself (by rw [hbool]; rfl)))
      · exact Refinement.unconstrained_over
  · split
    · trivial
    · split
      · rename_i hnumeric
        exact Concludes.pure (Refinement.single_over (hself hnumeric))
      · exact Refinement.unconstrained_over

/-- What follows from a condition is about the numbers and lengths that it mentions. -/
theorem refineAnswer_meets (env : Environment) (e : Expr) (answer : Bool) :
    Meets (Refinement.Over e.occurrences) (refineAnswer env e answer) := by
  have hvalue : ∀ (e : Expr) (answer : Bool), Meets (Refinement.Over e.occurrences)
      (do let value ← evaluate env e; return refineTruth value answer) :=
    fun e answer => (evaluate_meets env e).bind fun value _ => refineTruth_over value answer
  fun_induction refineAnswer env e answer with
  | case1 value answer => exact hvalue _ _
  | case2 type answer => exact hvalue _ _
  | case3 x answer => exact refineVariable_meets env x answer
  | case4 operand answer ih => exact ih
  | case5 left op right answer ihl ihr =>
      refine ihl.bind fun p hp => ihr.bind fun q hq => Refinement.connective_over _ ?_ ?_
      · exact hp.mono (List.subset_append_left _ _)
      · exact hq.mono (List.subset_append_right _ _)
  | case6 left op right answer => exact refineCompare_meets env left _ right
  | case7 => exact Refinement.unconstrained_over
  | case8 e => exact hvalue e false

namespace IntervalState

variable {s t : IntervalState} {identifiers : List Identifier} {x y : Identifier} {range : Interval}

/-! ### Single ranges -/

theorem store_set (s : IntervalState) (x : Identifier) (range : Interval) :
    (s.set x range).store = s.store.put x range := by
  unfold set Store.put
  split <;> rfl

theorem keys_set (s : IntervalState) (x : Identifier) (range : Interval) :
    (s.set x range).store.keys = s.store.keys := by
  rw [store_set, Store.keys_put]

theorem reachable_set (s : IntervalState) (x : Identifier) (range : Interval) :
    (s.set x range).reachable = s.reachable := by
  unfold set
  split <;> rfl

/-- A range that is set is found if the identifier is kept, and no other range changes. -/
theorem get?_set (s : IntervalState) (x y : Identifier) (range : Interval) :
    (s.set x range).get? y = if y = x then (s.get? x).map fun _ => range else s.get? y := by
  rw [get?, store_set, Store.get?_put]
  rfl

/-! ### Shape -/

/-- The state has the given identifiers, and all of them have a value unless it is bottom. -/
structure Shaped (identifiers : List Identifier) (s : IntervalState) : Prop where
  keys_eq : s.store.keys = identifiers
  proper : Extremal.isBottom s = false →
    ∀ x range, s.get? x = some range → range.isBottom = false

theorem bottom_shaped (hkeys : s.store.keys = identifiers) :
    Shaped identifiers (Extremal.bottom s) where
  keys_eq := (OrderedMap.keys_mapValues s.store Extremal.bottom).trans hkeys
  proper h := by cases h

/-- A state is made to be of its shape by going to bottom where an identifier has no value. -/
theorem normalized_shaped (hkeys : s.store.keys = identifiers) : Shaped identifiers s.normalized := by
  unfold normalized
  split
  · exact bottom_shaped hkeys
  · rename_i hany
    refine ⟨hkeys, fun _ x range hrange => ?_⟩
    rw [Bool.eq_false_iff]
    intro hbottom
    exact hany (List.any_eq_true.2 ⟨range, OrderedMap.mem_values_iff.2 ⟨x, hrange⟩, hbottom⟩)

theorem normalized_eq (h : ∀ x range, s.get? x = some range → range.isBottom = false) :
    s.normalized = s := by
  unfold normalized
  rw [if_neg]
  intro hany
  obtain ⟨range, hrange, hbottom⟩ := List.any_eq_true.1 hany
  obtain ⟨x, hx⟩ := OrderedMap.mem_values_iff.1 hrange
  rw [h x range hx] at hbottom
  cases hbottom

/-- A state all of whose identifiers have a value is bottom only if it is not reachable. -/
theorem isBottom_eq_false_of_values (hreachable : s.reachable = true)
    (h : ∀ x range, s.get? x = some range → range.isBottom = false) :
    Extremal.isBottom s = false := by
  refine isBottom_eq_false_iff.2 ⟨hreachable, ?_⟩
  rw [Bool.eq_false_iff]
  intro hbottom
  obtain ⟨x, range, hx, -, hrange⟩ := Store.isBottom_iff.1 hbottom
  exact Bool.eq_false_iff.1 (h x range hx) hrange

/-- Joins and widenings keep the shape and do not fail. -/
theorem settledJoin_shaped {f : Interval → Interval → Interval}
    (hf : ∀ a b : Interval, a.isBottom = false → b.isBottom = false → (f a b).isBottom = false)
    (hs : Shaped identifiers s) (ht : Shaped identifiers t) :
    Meets (Shaped identifiers) ((Extremal.settledJoin s t).elim
      (do return ofStore (← (Extremal.settledJoin s.store t.store).elim
        (Store.combine (fun a b => pure (f a b)) s.store t.store) pure)) pure) := by
  cases hsettled : Extremal.settledJoin s t with
  | some u =>
      rcases Extremal.settledJoin_eq_some hsettled with ⟨rfl, -⟩ | ⟨rfl, -⟩
      · exact hs
      · exact ht
  | none =>
      obtain ⟨⟨hproper, -⟩, hproper', -⟩ := Extremal.settledJoin_eq_none hsettled
      cases hstores : Extremal.settledJoin s.store t.store with
      | some u =>
          rcases Extremal.settledJoin_eq_some hstores with ⟨rfl, -⟩ | ⟨rfl, -⟩
          · exact ⟨hs.keys_eq, fun _ => hs.proper hproper⟩
          · exact ⟨ht.keys_eq, fun _ => ht.proper hproper'⟩
      | none =>
          obtain ⟨u, hu⟩ := Store.combine_pure (f := f) (hs.keys_eq.trans ht.keys_eq.symm)
          rw [Option.elim_none, Option.elim_none, hu]
          obtain ⟨-, hkeys⟩ := Store.combine_keys hu
          refine ⟨hkeys.trans hs.keys_eq, fun _ x c hc => ?_⟩
          obtain ⟨a, ha⟩ := OrderedMap.mem_keys_iff.1 (hkeys ▸ OrderedMap.mem_keys_iff.2 ⟨c, hc⟩)
          obtain ⟨b, c', hb, hc', hcombine⟩ := Store.combine_get? hu ha
          obtain rfl : c' = c := Option.some.inj (hc'.symm.trans hc)
          obtain rfl := pure_eq_ok.1 hcombine
          exact hf a b (hs.proper hproper x a ha) (ht.proper hproper' x b hb)

/-! ### Statements -/

theorem summariesOf_meets (s : IntervalState) : ∀ e : Expr, Meets (fun _ => True) (s.summariesOf e)
  | .var _ => trivial
  | .list _ items => (evaluateJoined_meets _ items).bind fun _ _ => trivial
  | .set _ items => (evaluateJoined_meets _ items).bind fun _ _ => trivial
  | .dict _ keys values =>
      (evaluateJoined_meets _ keys).bind fun _ _ =>
        (evaluateJoined_meets _ values).bind fun _ _ => trivial
  | .range start stop step =>
      (evaluate_meets _ start).bind fun _ _ => (evaluate_meets _ stop).bind fun _ _ =>
        (evaluate_meets _ step).bind fun _ _ => trivial
  | .slice _ target _ _ _ => by
      rw [summariesOf]
      exact (summariesOf_meets s target).bind fun _ _ => trivial
  | .arithmetic _ left op right => by
      cases op with
      | add =>
          rw [summariesOf]
          exact (summariesOf_meets s left).bind fun _ _ =>
            (summariesOf_meets s right).bind fun _ _ => trivial
      | _ => trivial
  | .keys target => by
      rw [summariesOf]
      exact (summariesOf_meets s target).bind fun _ _ => trivial
  | .values target => by
      rw [summariesOf]
      exact (summariesOf_meets s target).bind fun _ _ =>
        (length_meets _ target).bind fun _ _ => trivial
  | .literal _ => trivial
  | .input _ => trivial
  | .length _ => trivial
  | .field _ _ _ => trivial
  | .item _ _ _ => trivial
  | .signed _ _ _ => trivial
  | .not _ => trivial
  | .connective _ _ _ => trivial
  | .compare _ _ _ => trivial

theorem assignContainer_meets (s : IntervalState) (x : Identifier) (value : Expr) :
    Meets (fun t => t.store.keys = s.store.keys) (s.assignContainer x value) := by
  refine (length_meets _ value).bind fun _ _ => (s.summariesOf_meets value).bind fun _ _ => ?_
  exact (keys_set _ _ _).trans ((keys_set _ _ _).trans (keys_set _ _ _))

theorem keys_assignEntry (s : IntervalState) (x : Identifier) (key value : Interval) :
    (s.assignEntry x key value).store.keys = s.store.keys := by
  unfold assignEntry
  dsimp only
  split <;> exact (keys_set _ _ _).trans ((keys_set _ _ _).trans (keys_set _ _ _))

theorem assignItem_meets (s : IntervalState) (x : Identifier) (key value : Expr) :
    Meets (fun t => ∀ u, t = some u → u.store.keys = s.store.keys) (s.assignItem x key value) := by
  refine (evaluate_meets _ key).bind fun _ _ => (evaluate_meets _ value).bind fun _ _ => ?_
  split
  · exact Concludes.pure nofun
  · split
    · refine Concludes.pure fun u hu => ?_
      obtain rfl := Option.some.inj hu
      exact keys_assignEntry _ _ _ _
    · split
      · exact Concludes.pure nofun
      · refine Concludes.pure fun u hu => ?_
        obtain rfl := Option.some.inj hu
        exact keys_set _ _ _
    · trivial

theorem assign_shaped (hkeys : s.store.keys = identifiers) (left right : Expr) :
    Meets (Shaped identifiers) (s.assign left right) := by
  unfold assign
  split
  · split
    · exact (evaluate_meets _ right).bind fun _ _ => normalized_shaped ((keys_set _ _ _).trans hkeys)
    · split
      · exact (assignContainer_meets _ _ right).bind fun _ ht => normalized_shaped (ht.trans hkeys)
      · exact normalized_shaped hkeys
  · split
    · refine (assignItem_meets _ _ _ right).bind fun t ht => ?_
      cases t with
      | none => exact bottom_shaped hkeys
      | some u => exact normalized_shaped ((ht u rfl).trans hkeys)
    · trivial
  · trivial

/-- Setting a range that has a value keeps the shape, and the state stays proper. -/
theorem set_shaped (hs : Shaped identifiers s) (hproper : Extremal.isBottom s = false)
    (hrange : range.isBottom = false) (x : Identifier) :
    Shaped identifiers (s.set x range) ∧ Extremal.isBottom (s.set x range) = false := by
  have hvalues : ∀ y range', (s.set x range).get? y = some range' → range'.isBottom = false := by
    intro y range' hy
    rw [get?_set] at hy
    split at hy
    · obtain ⟨_, -, rfl⟩ := Option.map_eq_some_iff.1 hy
      exact hrange
    · exact hs.proper hproper y range' hy
  refine ⟨⟨(keys_set _ _ _).trans hs.keys_eq, fun _ => hvalues⟩, ?_⟩
  exact isBottom_eq_false_of_values
    ((reachable_set _ _ _).trans (isBottom_eq_false_iff.1 hproper).1) hvalues

/-- Narrowing keeps the shape: it gives up as soon as an identifier has no value left. -/
theorem narrow?_shaped {ranges : List (Identifier × Interval)} (hs : Shaped identifiers s)
    (hproper : Extremal.isBottom s = false) (h : s.narrow? ranges = some t) :
    Shaped identifiers t := by
  induction ranges generalizing s with
  | nil =>
      obtain rfl := Option.some.inj h
      exact hs
  | cons entry rest ih =>
      rw [narrow?] at h
      split at h
      · cases h
      · rename_i hrefined
        obtain ⟨hs, hproper⟩ := set_shaped hs hproper (Bool.eq_false_iff.2 hrefined) entry.1
        exact ih hs hproper h

theorem assume_shaped (hs : Shaped identifiers s) (hproper : Extremal.isBottom s = false)
    (condition : Expr) : Meets (Shaped identifiers) (s.assume condition) := by
  refine (refineAnswer_meets _ condition true).bind fun found _ => ?_
  cases found with
  | infeasible => exact bottom_shaped hs.keys_eq
  | constrain ranges =>
      refine Concludes.pure ?_
      cases hnarrow : s.narrow? ranges.entries with
      | none => exact bottom_shaped hs.keys_eq
      | some t => exact narrow?_shaped hs hproper hnarrow

/-- Every operation on interval states keeps the shape. -/
theorem shaped_closed (identifiers : List Identifier) :
    StateDomain.Closed AnalysisError.IsSemantic (Shaped identifiers) where
  semantic _ he := he
  bottom h := bottom_shaped h.keys_eq
  withResult _ h := ⟨h.keys_eq, h.proper⟩
  before _ _ h := h
  join hs ht := settledJoin_shaped (fun a b ha _ =>
    Interval.isBottom_eq_false_of_le (Interval.le_join_left a b) ha) hs ht
  widen hs ht := settledJoin_shaped (fun a b ha _ =>
    Interval.isBottom_eq_false_of_le (Interval.le_widen_left a b) ha) hs ht
  assignOne left right h _ := assign_shaped h.keys_eq left right
  assumeOne condition h hproper := assume_shaped h hproper condition
  substituteOne _ _ _ _ := trivial
  outputOne _ h _ := h
  enterIf h := h
  exitIf h := h
  enterLoop h := h
  exitLoop h := h

theorem get?_ofVariables {vars : List Identifier} (h : (ofVariables vars).get? x = some range) :
    range = x.unknown := by
  rw [get?, ofVariables, Store.get?_ofIdentifiers] at h
  split at h
  · exact (Option.some.inj h).symm
  · cases h

/-- The identifiers of a state of which nothing is known are those of its variables. -/
theorem mem_keys_ofVariables_iff {vars : List Identifier} :
    x ∈ (ofVariables vars).store.keys ↔ ∃ v ∈ vars, x ∈ tracked v := by
  rw [OrderedMap.mem_keys_iff, ofVariables, ← List.mem_flatMap]
  simp only [Store.get?_ofIdentifiers, Option.ite_none_right_eq_some]
  constructor
  · rintro ⟨_, hx, -⟩
    exact hx
  · intro hx
    exact ⟨_, hx, rfl⟩

theorem isBottom_unknown (x : Identifier) : x.unknown.isBottom = false := by
  unfold Identifier.unknown
  split <;> decide

theorem ofVariables_shaped (vars : List Identifier) :
    Shaped (ofVariables vars).store.keys (ofVariables vars) where
  keys_eq := rfl
  proper _ x range h := by
    rw [get?_ofVariables h]
    exact isBottom_unknown x

theorem isBottom_ofVariables (vars : List Identifier) :
    Extremal.isBottom (ofVariables vars) = false :=
  isBottom_eq_false_of_values rfl fun x range h => by
    rw [get?_ofVariables h]
    exact isBottom_unknown x

end IntervalState

end FlowAnalysis
