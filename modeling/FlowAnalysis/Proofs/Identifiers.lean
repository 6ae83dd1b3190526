import FlowAnalysis.Proofs.Analysis.Handled
import FlowAnalysis.Proofs.Analysis.Termination
import FlowAnalysis.Proofs.Program.Translation
import FlowAnalysis.Proofs.Segment.Safety

/-!
No update is lost. A range is set only if its identifier is kept, and it is dropped without a word
otherwise. A run that starts with the variables of its graph drops nothing: every state that it handles
keeps the identifiers of the first one, in their order, and what an assignment writes or a guard
constrains is a number or a length of a variable that the graph mentions.
-/

namespace FlowAnalysis

/-- The numbers and lengths that an assignment to an expression writes. -/
def Expr.written : Expr → List Identifier
  | .var x => x.scalars
  | .item _ (.var container) _ => if container.hasLength then [container.lengthOf] else []
  | _ => []

theorem Expr.mem_scalars_of_written {target : Expr} {x : Identifier} (hx : x ∈ target.written) :
    ∃ v ∈ target.occurrences, x ∈ v.scalars := by
  unfold written at hx
  split at hx
  · rename_i v
    exact ⟨v, List.mem_singleton_self v, hx⟩
  · rename_i container key
    split at hx
    · rename_i hlength
      obtain rfl := List.mem_singleton.1 hx
      exact ⟨container, List.mem_append_left _ (List.mem_singleton_self _),
        Identifier.lengthOf_mem_scalars hlength⟩
    · cases hx
  · cases hx

/-! ### Stores of ranges -/

namespace Store

variable {s : Store Interval} {x y : Identifier} {range : Interval}

/-- The store with ranges narrowed one after another. -/
def narrowed (s : Store Interval) : List (Identifier × Interval) → Store Interval
  | [] => s
  | (x, range) :: rest => narrowed (s.put x (((s.get? x).getD x.unknown).meet range)) rest

theorem get?_narrowed_of_not_mem {ranges : List (Identifier × Interval)}
    (hx : x ∉ ranges.map Prod.fst) : (s.narrowed ranges).get? x = s.get? x := by
  induction ranges generalizing s with
  | nil => rfl
  | cons entry rest ih =>
      rw [List.map_cons, List.mem_cons, not_or] at hx
      rw [narrowed, ih hx.2, get?_put_of_ne hx.1]

/-- Each identifier that is kept is narrowed by its range. -/
theorem get?_narrowed {ranges : List (Identifier × Interval)} (hnodup : (ranges.map Prod.fst).Nodup)
    (hx : x ∈ s.keys) (hmem : (x, range) ∈ ranges) :
    (s.narrowed ranges).get? x = some (((s.get? x).getD x.unknown).meet range) := by
  induction ranges generalizing s with
  | nil => cases hmem
  | cons entry rest ih =>
      obtain ⟨hfirst, hnodup⟩ := List.nodup_cons.1 hnodup
      rw [narrowed]
      rcases List.mem_cons.1 hmem with rfl | hmem
      · rw [get?_narrowed_of_not_mem hfirst, get?_put_self hx]
      · have hne : x ≠ entry.1 := by
          rintro rfl
          exact hfirst (List.mem_map.2 ⟨_, hmem, rfl⟩)
        rw [ih hnodup ((keys_put _ _ _).symm ▸ hx) hmem, get?_put_of_ne hne]

/-- The numbers and lengths of two stores agree; summaries may differ. -/
def AgreesOn (s t : Store Interval) : Prop :=
  ∀ y : Identifier, y.role = .variable ∨ y.role = .length → s.get? y = t.get? y

theorem AgreesOn.refl (s : Store Interval) : s.AgreesOn s := fun _ _ => rfl

theorem AgreesOn.trans {t u : Store Interval} (hst : s.AgreesOn t) (htu : t.AgreesOn u) : s.AgreesOn u :=
  fun y hy => (hst y hy).trans (htu y hy)

theorem AgreesOn.put {t : Store Interval} (h : s.AgreesOn t) (x : Identifier) (range : Interval) :
    (s.put x range).AgreesOn (t.put x range) := by
  intro y hy
  rw [get?_put, get?_put]
  split
  · rename_i hyx
    rw [h x (hyx ▸ hy)]
  · exact h y hy

/-- Setting a summary leaves numbers and lengths alone. -/
theorem agreesOn_put (hx : x.role = .keys ∨ x.role = .values) (s : Store Interval) :
    (s.put x range).AgreesOn s := by
  intro y hy
  refine get?_put_of_ne ?_
  rintro rfl
  rcases hx with hx | hx <;> simp [hx] at hy

/-- What an assignment does to the numbers and lengths of a store. -/
inductive Assigned (env : Environment) (s t : Store Interval) : Expr → Expr → Prop where
  | number {x : Identifier} {right : Expr} {range : Interval} (hx : x.type.isNumeric = true)
      (hrange : evaluate env right = .ok range) (h : t = s.put x range) : Assigned env s t (.var x) right
  | sized {x : Identifier} {right : Expr} {size : Interval} (hx : x.type.isNumeric = false)
      (hlength : x.hasLength = true) (hsize : length env right = .ok size)
      (h : t.AgreesOn (s.put x.lengthOf size)) : Assigned env s t (.var x) right
  | other {x : Identifier} {right : Expr} (hx : x.type.isNumeric = false) (hlength : x.hasLength = false)
      (h : t.AgreesOn s) : Assigned env s t (.var x) right
  | entry {type : Ty} {container : Identifier} {key right : Expr} (hlength : container.hasLength = true)
      (h : ∃ size, t.AgreesOn (s.put container.lengthOf size)) :
      Assigned env s t (.item type (.var container) key) right
  | position {type : Ty} {container : Identifier} {key right : Expr} (h : t.AgreesOn s) :
      Assigned env s t (.item type (.var container) key) right

namespace Assigned

variable {env : Environment} {t : Store Interval} {target right : Expr}

/-- An assignment leaves alone what it does not write. -/
theorem get?_of_not_written (h : Assigned env s t target right)
    (hrole : x.role = .variable ∨ x.role = .length) (hx : x ∉ target.written) : t.get? x = s.get? x := by
  cases h with
  | number hy _ h =>
      rw [h, get?_put_of_ne]
      rintro rfl
      exact hx (Identifier.mem_scalars_self hy)
  | sized _ hlength _ h =>
      rw [h x hrole, get?_put_of_ne]
      rintro rfl
      exact hx (Identifier.lengthOf_mem_scalars hlength)
  | other _ _ h => exact h x hrole
  | entry hlength h =>
      obtain ⟨size, h⟩ := h
      rw [h x hrole, get?_put_of_ne]
      rintro rfl
      exact hx (by simp [Expr.written, hlength])
  | position h => exact h x hrole

/-- A number that is kept and assigned has the range of what was assigned. -/
theorem get?_number (h : Assigned env s t (.var x) right) (hx : x.type.isNumeric = true)
    (hkept : x ∈ s.keys) (hrange : evaluate env right = .ok range) : t.get? x = some range := by
  cases h with
  | number _ hrange' h =>
      obtain rfl := Except.ok.inj (hrange.symm.trans hrange')
      rw [h, get?_put_self hkept]
  | sized hx' => exact absurd hx (Bool.eq_false_iff.1 hx')
  | other hx' => exact absurd hx (Bool.eq_false_iff.1 hx')

/-- A length that is kept is the length of what was assigned. -/
theorem get?_length (h : Assigned env s t (.var x) right) (hx : x.type.isNumeric = false)
    (hlength : x.hasLength = true) (hkept : x.lengthOf ∈ s.keys) (hsize : length env right = .ok range) :
    t.get? x.lengthOf = some range := by
  cases h with
  | number hx' => exact absurd hx' (Bool.eq_false_iff.1 hx)
  | sized _ _ hsize' h =>
      obtain rfl := Except.ok.inj (hsize.symm.trans hsize')
      rw [h _ (Or.inr rfl), get?_put_self hkept]
  | other _ hlength' => exact absurd hlength (Bool.eq_false_iff.1 hlength')

end Assigned

end Store

/-! ### States with ranges -/

/-- What the states have in common that keep the ranges of numbers and lengths. Containers and items are assigned in
ways of their own. -/
structure RangeOps (S : Type) [Extremal S] where
  numbers : S → Store Interval
  environment : S → Environment
  set : S → Identifier → Interval → S
  /-- Whether a number, a length or a container has no value. -/
  hasVoid : S → Bool
  narrow? : S → List (Identifier × Interval) → Option S
  assignContainer : S → Identifier → Expr → Outcome S
  assignItem : S → Identifier → Expr → Expr → Outcome (Option S)
  isBottom_bottom : ∀ s : S, Extremal.isBottom (Extremal.bottom s) = true
  numbers_set : ∀ s x range, numbers (set s x range) = (numbers s).put x range
  value_eq : ∀ s x, (environment s).value x = ((numbers s).get? x).getD x.unknown
  narrow?_nil : ∀ s, narrow? s [] = some s
  narrow?_cons : ∀ s x range rest, narrow? s ((x, range) :: rest) =
    if (((environment s).value x).meet range).isBottom then none
    else narrow? (set s x (((environment s).value x).meet range)) rest
  container : ∀ {s t x right}, assignContainer s x right = .ok t →
    ∃ size, length (environment s) right = .ok size ∧ (numbers t).AgreesOn ((numbers s).put x.lengthOf size)
  item : ∀ {s t type x key right}, x.hasLength = true → assignItem s x key right = .ok (some t) →
    Store.Assigned (environment s) (numbers s) (numbers t) (.item type (.var x) key) right

namespace RangeOps

variable {S : Type} [Extremal S] (ops : RangeOps S)

def normalized (s : S) : S := if ops.hasVoid s then Extremal.bottom s else s

/-- The state after an assignment, which is rejected unless it is to a variable or to an item of one. -/
def assign (rejected : Expr → AnalysisError) (s : S) (left right : Expr) : Outcome S :=
  match left with
  | .var x =>
    if x.type.isNumeric then do
      let value ← evaluate (ops.environment s) right
      return ops.normalized (ops.set s x value)
    else if x.hasLength then do
      let s ← ops.assignContainer s x right
      return ops.normalized s
    else pure (ops.normalized s)
  | .item _ (.var container) key =>
    if container.hasLength then do
      match ← ops.assignItem s container key right with
      | some s => return ops.normalized s
      | none => return Extremal.bottom s
    else throw (rejected left)
  | _ => throw (rejected left)

def assume (s : S) (condition : Expr) : Outcome S := do
  match ← refine (ops.environment s) condition with
  | .infeasible => return Extremal.bottom s
  | .constrain ranges => return (ops.narrow? s ranges.entries).getD (Extremal.bottom s)

variable {ops} {s t : S} {left right condition : Expr} {rejected : Expr → AnalysisError}

theorem normalized_eq_self (h : Extremal.isBottom (ops.normalized s) = false) : ops.normalized s = s := by
  unfold normalized at h ⊢
  split at h
  · rw [ops.isBottom_bottom] at h
    cases h
  · rename_i hvoid
    rw [if_neg hvoid]

/-- What an assignment leaves that has an outcome. -/
theorem assigned_of_assign (h : ops.assign rejected s left right = .ok t) (ht : Extremal.isBottom t = false) :
    Store.Assigned (ops.environment s) (ops.numbers s) (ops.numbers t) left right := by
  unfold assign at h
  split at h
  · split at h
    · rename_i hx
      obtain ⟨range, hrange, h⟩ := bind_eq_ok.1 h
      obtain rfl := pure_eq_ok.1 h
      refine .number hx hrange ?_
      rw [normalized_eq_self ht, ops.numbers_set]
    · rename_i hx
      have hx := Bool.eq_false_iff.2 hx
      split at h
      · rename_i hlength
        obtain ⟨u, hu, h⟩ := bind_eq_ok.1 h
        obtain rfl := pure_eq_ok.1 h
        obtain ⟨size, hsize, hnumbers⟩ := ops.container hu
        refine .sized hx hlength hsize ?_
        rwa [normalized_eq_self ht]
      · rename_i hlength
        obtain rfl := pure_eq_ok.1 h
        refine .other hx (Bool.eq_false_iff.2 hlength) ?_
        rw [normalized_eq_self ht]
        exact .refl _
  · split at h
    · rename_i hlength
      obtain ⟨found, hfound, h⟩ := bind_eq_ok.1 h
      cases found with
      | none =>
          obtain rfl := pure_eq_ok.1 h
          rw [ops.isBottom_bottom] at ht
          cases ht
      | some u =>
          obtain rfl := pure_eq_ok.1 h
          rw [normalized_eq_self ht]
          exact ops.item hlength hfound
    · cases h
  · cases h

theorem numbers_narrow? {ranges : List (Identifier × Interval)} (h : ops.narrow? s ranges = some t) :
    ops.numbers t = (ops.numbers s).narrowed ranges := by
  induction ranges generalizing s with
  | nil =>
      rw [ops.narrow?_nil] at h
      obtain rfl := Option.some.inj h
      rfl
  | cons entry rest ih =>
      rw [ops.narrow?_cons] at h
      split at h
      · cases h
      · rw [ih h, ops.numbers_set, ops.value_eq]
        rfl

/-- What a test leaves that can hold. -/
theorem narrowed_of_assume (h : ops.assume s condition = .ok t) (ht : Extremal.isBottom t = false) :
    ∃ ranges, refine (ops.environment s) condition = .ok (.constrain ranges) ∧
      ops.numbers t = (ops.numbers s).narrowed ranges.entries := by
  obtain ⟨found, hfound, h⟩ := bind_eq_ok.1 h
  cases found with
  | infeasible =>
      obtain rfl := pure_eq_ok.1 h
      rw [ops.isBottom_bottom] at ht
      cases ht
  | constrain ranges =>
      obtain rfl := pure_eq_ok.1 h
      cases hnarrow : ops.narrow? s ranges.entries with
      | none =>
          rw [hnarrow, Option.getD_none, ops.isBottom_bottom] at ht
          cases ht
      | some u => exact ⟨ranges, hfound, numbers_narrow? hnarrow⟩

end RangeOps

namespace IntervalState

variable {s t : IntervalState} {right : Expr}

theorem agreesOn_set_summaries (s : IntervalState) (x : Identifier) (keys values : Interval) :
    ((s.set x.keysOf keys).set x.valuesOf values).store.AgreesOn s.store := by
  rw [store_set, store_set]
  exact (Store.agreesOn_put (Or.inr rfl) _).trans (Store.agreesOn_put (Or.inl rfl) _)

theorem agreesOn_of_assignEntry (s : IntervalState) (container : Identifier) (key value : Interval) :
    ∃ size, (s.assignEntry container key value).store.AgreesOn (s.store.put container.lengthOf size) := by
  unfold assignEntry
  dsimp only
  split
  · rw [store_set]
    exact ⟨_, (agreesOn_set_summaries s container _ _).put _ _⟩
  · rw [store_set]
    exact ⟨_, (agreesOn_set_summaries s container _ _).put _ _⟩

theorem agreesOn_of_assignContainer {x : Identifier} (h : s.assignContainer x right = .ok t) :
    ∃ size, length s.environment right = .ok size ∧ t.store.AgreesOn (s.store.put x.lengthOf size) := by
  obtain ⟨size, hsize, h⟩ := bind_eq_ok.1 h
  obtain ⟨⟨keys, values⟩, -, h⟩ := bind_eq_ok.1 h
  obtain rfl := pure_eq_ok.1 h
  refine ⟨size, hsize, ?_⟩
  rw [← store_set]
  exact agreesOn_set_summaries _ x _ _

theorem assigned_of_assignItem {type : Ty} {container : Identifier} {key : Expr}
    (hlength : container.hasLength = true) (h : s.assignItem container key right = .ok (some t)) :
    Store.Assigned s.environment s.store t.store (.item type (.var container) key) right := by
  obtain ⟨k, -, h⟩ := bind_eq_ok.1 h
  obtain ⟨value, -, h⟩ := bind_eq_ok.1 h
  split at h
  · cases h
  · split at h
    · obtain rfl := Option.some.inj (pure_eq_ok.1 h)
      exact .entry hlength (agreesOn_of_assignEntry s container k value)
    · split at h
      · cases h
      · obtain rfl := Option.some.inj (pure_eq_ok.1 h)
        refine .position ?_
        rw [store_set]
        exact Store.agreesOn_put (Or.inr rfl) _
    · cases h

def rangeOps : RangeOps IntervalState where
  numbers := store
  environment := environment
  set := set
  hasVoid s := s.store.values.any Interval.isBottom
  narrow? := narrow?
  assignContainer := assignContainer
  assignItem := assignItem
  isBottom_bottom _ := rfl
  numbers_set := store_set
  value_eq _ _ := rfl
  narrow?_nil _ := rfl
  narrow?_cons _ _ _ _ := rfl
  container := agreesOn_of_assignContainer
  item := assigned_of_assignItem

theorem assign_eq (s : IntervalState) (left right : Expr) : s.assign left right =
    rangeOps.assign (fun left => .unsupported "interval" ("assignment to " ++ left.text)) s left right := by
  cases left with
  | item type target key =>
      cases target with
      | var container =>
          refine ite_congr rfl (fun _ => bind_congr fun found => ?_) fun _ => rfl
          cases found <;> rfl
      | _ => rfl
  | _ => rfl

end IntervalState

namespace SegmentState

variable {s t : SegmentState} {right : Expr}

theorem scalars_setScalar (s : SegmentState) (x : Identifier) (range : Interval) :
    (s.setScalar x range).scalars = s.scalars.put x range := by
  unfold setScalar Store.put
  split <;> rfl

theorem agreesOn_of_assignContainer {x : Identifier} (h : s.assignContainer x right = .ok t) :
    ∃ size, length s.environment right = .ok size ∧ t.scalars.AgreesOn (s.scalars.put x.lengthOf size) := by
  obtain ⟨size, hsize, h⟩ := bind_eq_ok.1 h
  refine ⟨size, hsize, ?_⟩
  rw [← scalars_setScalar]
  dsimp only at h
  split at h
  · split at h
    · obtain rfl := pure_eq_ok.1 h
      exact .refl _
    · obtain ⟨content, -, h⟩ := bind_eq_ok.1 h
      obtain rfl := pure_eq_ok.1 h
      exact .refl _
  · obtain rfl := pure_eq_ok.1 h
    exact .refl _

theorem scalars_of_assignRegion {container : Identifier} {content : SegmentMap} {key : Region} {value : Interval}
    (h : s.assignRegion container content key value = .ok t) :
    t.scalars = s.scalars ∨ ∃ size, t.scalars = s.scalars.put container.lengthOf size := by
  rw [assignRegion_eq] at h
  obtain ⟨updated, -, rfl⟩ := map_eq_ok.1 h
  split
  · exact Or.inr ⟨_, scalars_setScalar _ _ _⟩
  · exact Or.inl rfl

theorem assigned_of_assignItem {type : Ty} {container : Identifier} {key : Expr}
    (hlength : container.hasLength = true) (h : s.assignItem container key right = .ok (some t)) :
    Store.Assigned s.environment s.scalars t.scalars (.item type (.var container) key) right := by
  obtain ⟨k, -, h⟩ := bind_eq_ok.1 h
  obtain ⟨value, -, h⟩ := bind_eq_ok.1 h
  split at h
  · cases h
  · split at h
    · cases h
    · dsimp only at h
      split at h
      · cases h
      · obtain ⟨u, hu, h⟩ := bind_eq_ok.1 h
        obtain rfl := Option.some.inj (pure_eq_ok.1 h)
        rcases scalars_of_assignRegion hu with hscalars | ⟨size, hscalars⟩
        · rw [hscalars]
          exact .position (.refl _)
        · rw [hscalars]
          exact .entry hlength ⟨size, .refl _⟩

def rangeOps : RangeOps SegmentState where
  numbers := scalars
  environment := environment
  set := setScalar
  hasVoid s := s.scalars.values.any Interval.isBottom || Extremal.isBottom s.contents
  narrow? := narrow?
  assignContainer := assignContainer
  assignItem := assignItem
  isBottom_bottom _ := rfl
  numbers_set := scalars_setScalar
  value_eq _ _ := rfl
  narrow?_nil _ := rfl
  narrow?_cons _ _ _ _ := rfl
  container := agreesOn_of_assignContainer
  item := assigned_of_assignItem

theorem assign_eq (s : SegmentState) (left right : Expr) : s.assign left right =
    rangeOps.assign (fun left => .unsupported "fulara" ("assignment to " ++ left.text)) s left right := by
  cases left with
  | item type target key =>
      cases target with
      | var container =>
          refine ite_congr rfl (fun _ => bind_congr fun found => ?_) fun _ => rfl
          cases found <;> rfl
      | _ => rfl
  | _ => rfl

end SegmentState

/-! ### Runs -/

namespace Analysis

open StateDomain (Closed)

variable {S Pre : Type} {a : Analysis S Pre}

/-- Some statement of the run assigns to an expression. -/
def Assigns (a : Analysis S Pre) (target : Expr) : Prop :=
  ∃ point left right, a.Performs (.assign point left right) ∧ left.denoted? = some target

/-- Some guard of the run denotes a condition. -/
def Tests (a : Analysis S Pre) (condition : Expr) : Prop :=
  ∃ guard, a.Performs guard ∧ guard.denoted? = some condition

/-- What an assignment of the run writes is a number or a length of a variable of the graph. -/
theorem Assigns.mem_scalars {target : Expr} {x : Identifier} (hg : a.graph.Wired) (h : a.Assigns target)
    (hx : x ∈ target.written) : ∃ v ∈ a.graph.vars, x ∈ v.scalars := by
  obtain ⟨point, left, right, hperforms, hleft⟩ := h
  obtain ⟨v, hv, hx⟩ := Expr.mem_scalars_of_written hx
  refine ⟨v, ?_, hx⟩
  exact Graph.mem_vars (hperforms.mem_statements hg) v
    (List.mem_append_left _ (Stmt.occurrences_of_denoted? hleft hv))

/-- What a guard of the run constrains is a number or a length of a variable of the graph. -/
theorem Tests.mem_scalars {env : Environment} {condition : Expr} {ranges : OrderedMap Identifier Interval}
    {x : Identifier} (hg : a.graph.Wired) (h : a.Tests condition)
    (hrefine : refine env condition = .ok (.constrain ranges)) (hx : x ∈ ranges.keys) :
    ∃ v ∈ a.graph.vars, x ∈ v.scalars := by
  obtain ⟨guard, hperforms, hguard⟩ := h
  obtain ⟨v, hv, hx⟩ := (refineAnswer_meets env condition true).result hrefine x hx
  exact ⟨v, Graph.mem_vars (hperforms.mem_statements hg) v (Stmt.occurrences_of_denoted? hguard hv), hx⟩

variable [StateDomain S Pre]

/-- No update of a run is lost. The states have `identifiers`, of which some have a range among the `numbers`;
the `environment` reads them, and a range is `set` only if its identifier is kept. -/
structure LosesNothing (a : Analysis S Pre) {ι : Type} (identifiers : S → ι) (numbers : S → Store Interval)
    (environment : S → Environment) (set : S → Identifier → Interval → S) : Prop where
  /-- Every state has the identifiers of the initial one, in their order. -/
  identifiers_eq : ∀ s, a.Handles s → identifiers s = identifiers a.initial
  /-- No run fails because two states have different identifiers. -/
  combinable : ∀ steps, a.runWithin steps ≠ some (.error .differentIdentifiers)
  /-- What an assignment writes is kept. -/
  written_mem : ∀ target, a.Assigns target → ∀ x ∈ target.written, x ∈ (numbers a.initial).keys
  /-- An assignment writes no other number or length. -/
  unwritten_eq : ∀ s t target right, StateDomain.assignOne s target right = .ok t →
    Extremal.isBottom t = false → ∀ x : Identifier, x.role = .variable ∨ x.role = .length →
      x ∉ target.written → (numbers t).get? x = (numbers s).get? x
  /-- What a guard constrains is kept. -/
  constrained_mem : ∀ env condition ranges, a.Tests condition →
    refine env condition = .ok (.constrain ranges) → ∀ x ∈ ranges.keys, x ∈ (numbers a.initial).keys
  /-- Setting the range of an identifier that is kept takes effect in every state of the run. -/
  set_eq : ∀ s, a.Handles s → ∀ x ∈ (numbers a.initial).keys, ∀ range,
    (numbers (set s x range)).get? x = some range
  /-- An assigned number has the range of what was assigned. -/
  assigned_eq : ∀ s t x right range, a.Handles s → a.Assigns (.var x) → x.type.isNumeric = true →
    StateDomain.assignOne s (.var x) right = .ok t → Extremal.isBottom t = false →
      evaluate (environment s) right = .ok range → (numbers t).get? x = some range
  /-- An assigned sequence or container has the length of what was assigned. -/
  length_eq : ∀ s t x right size, a.Handles s → a.Assigns (.var x) → x.type.isNumeric = false →
    x.hasLength = true → StateDomain.assignOne s (.var x) right = .ok t → Extremal.isBottom t = false →
      length (environment s) right = .ok size → (numbers t).get? x.lengthOf = some size
  /-- A guard narrows all that it constrains. -/
  narrowed_eq : ∀ s t condition ranges, a.Handles s → a.Tests condition →
    refine (environment s) condition = .ok (.constrain ranges) →
      StateDomain.assumeOne s condition = .ok t → Extremal.isBottom t = false →
        ∀ x range, ranges.get? x = some range →
          (numbers t).get? x = some (((environment s).value x).meet range)

/-- A run loses nothing if its operations keep the shape of states and its initial state has the numbers and
lengths of all variables of the graph. -/
theorem losesNothing_of_closed {ι : Type} {identifiers : S → ι} (ops : RangeOps S) {E : AnalysisError → Prop}
    {P : S → Prop} {rejected : Expr → AnalysisError} (hclosed : Closed E P) (hinitial : P a.initial)
    (herror : ¬ E .differentIdentifiers) (hidentifiers : ∀ s, P s → identifiers s = identifiers a.initial)
    (hkeys : ∀ s, P s → (ops.numbers s).keys = (ops.numbers a.initial).keys)
    (hassign : ∀ s left right, StateDomain.assignOne s left right = ops.assign rejected s left right)
    (hassume : ∀ s condition, StateDomain.assumeOne s condition = ops.assume s condition) (hg : a.graph.Wired)
    (hkept : ∀ v ∈ a.graph.vars, ∀ x ∈ v.scalars, x ∈ (ops.numbers a.initial).keys) :
    a.LosesNothing identifiers ops.numbers ops.environment ops.set := by
  have hshape : ∀ {s}, a.Handles s → P s := fun hs => hs.of_closed hclosed hinitial
  have hwritten : ∀ target, a.Assigns target → ∀ x ∈ target.written, x ∈ (ops.numbers a.initial).keys := by
    intro target htarget x hx
    obtain ⟨v, hv, hx⟩ := htarget.mem_scalars hg hx
    exact hkept v hv x hx
  have hconstrained : ∀ env condition ranges, a.Tests condition →
      refine env condition = .ok (.constrain ranges) → ∀ x ∈ ranges.keys, x ∈ (ops.numbers a.initial).keys := by
    intro env condition ranges htests hrefine x hx
    obtain ⟨v, hv, hx⟩ := htests.mem_scalars hg hrefine hx
    exact hkept v hv x hx
  have hassigned : ∀ {s t left right}, StateDomain.assignOne s left right = .ok t → Extremal.isBottom t = false →
      Store.Assigned (ops.environment s) (ops.numbers s) (ops.numbers t) left right :=
    fun hst ht => RangeOps.assigned_of_assign (hassign _ _ _ ▸ hst) ht
  exact {
    identifiers_eq := fun s hs => hidentifiers s (hshape hs)
    combinable := by
      intro steps hrun
      obtain ⟨outcome, hiterate, houtcome⟩ := Option.map_eq_some_iff.1 hrun
      cases outcome with
      | ok p => cases houtcome
      | error e =>
          obtain rfl := Except.error.inj houtcome
          rcases iterate_error hclosed hinitial .begin hiterate with herror' | ⟨-, n, k, hcap⟩
          · exact herror herror'
          · cases hcap
    written_mem := hwritten
    unwritten_eq := fun s t target right hst ht x hrole hx =>
      (hassigned hst ht).get?_of_not_written hrole hx
    constrained_mem := hconstrained
    set_eq := fun s hs x hx range => by
      rw [ops.numbers_set]
      exact Store.get?_put_self ((hkeys s (hshape hs)).symm ▸ hx)
    assigned_eq := fun s t x right range hs hassigns hx hst ht hrange => by
      have hmem := hwritten _ hassigns x (Identifier.mem_scalars_self hx)
      exact (hassigned hst ht).get?_number hx ((hkeys s (hshape hs)).symm ▸ hmem) hrange
    length_eq := fun s t x right size hs hassigns hx hlength hst ht hsize => by
      have hmem := hwritten _ hassigns x.lengthOf (Identifier.lengthOf_mem_scalars hlength)
      exact (hassigned hst ht).get?_length hx hlength ((hkeys s (hshape hs)).symm ▸ hmem) hsize
    narrowed_eq := fun s t condition ranges hs htests hrefine hst ht x range hx => by
      obtain ⟨ranges', hrefine', hnumbers⟩ := RangeOps.narrowed_of_assume (hassume s condition ▸ hst) ht
      obtain rfl : ranges = ranges' := by
        rw [hrefine] at hrefine'
        exact Refinement.constrain.inj (Except.ok.inj hrefine')
      have hmem := hconstrained _ condition ranges htests hrefine x (OrderedMap.mem_keys_iff.2 ⟨range, hx⟩)
      rw [hnumbers, ops.value_eq]
      exact Store.get?_narrowed ranges.nodup ((hkeys s (hshape hs)).symm ▸ hmem) (OrderedMap.mem_entries_iff.2 hx) }

end Analysis

/-! ### The two domains of ranges -/

theorem SegmentState.mem_keys_ofVariables {vars : List Identifier} {v x : Identifier} (hv : v ∈ vars)
    (hx : x ∈ v.scalars) : x ∈ (ofVariables vars).scalars.keys := by
  refine OrderedMap.mem_keys_iff.2 ⟨x.unknown, ?_⟩
  have hmem : x ∈ vars.flatMap Identifier.scalars := List.mem_flatMap.2 ⟨v, hv, hx⟩
  rw [ofVariables, Store.get?_ofIdentifiers, if_pos hmem]

namespace Analysis

/-- No run over interval states or segmented states that starts with the variables of its graph loses an
update, whatever the graph. -/
theorem losesNothing_ofVariables {nodes : List Node} {edges : List Edge} {entry exit : Nat} {g : Graph}
    (hbuild : Graph.build nodes edges entry exit = .ok g) (direction : Direction) (settings : Settings)
    (precursory : Option (AnalysisResult Unit)) :
    (⟨g, direction, settings, precursory, .ofVariables g.vars.toList⟩ :
        Analysis IntervalState Unit).LosesNothing
      (fun s => s.store.keys) IntervalState.store IntervalState.environment IntervalState.set ∧
    (⟨g, direction, settings, precursory, .ofVariables g.vars.toList⟩ :
        Analysis SegmentState Unit).LosesNothing
      (fun s => (s.scalars.keys, s.contents.keys)) SegmentState.scalars SegmentState.environment
      SegmentState.setScalar := by
  have hg := (Graph.build_wired hbuild).1
  constructor
  · exact losesNothing_of_closed IntervalState.rangeOps (IntervalState.shaped_closed _)
      (IntervalState.ofVariables_shaped _) id (fun _ hs => hs.keys_eq) (fun _ hs => hs.keys_eq)
      IntervalState.assign_eq (fun _ _ => rfl) hg
      fun v hv _ hx => IntervalState.mem_keys_ofVariables_iff.2 ⟨v, hv, List.mem_append_left _ hx⟩
  · refine losesNothing_of_closed SegmentState.rangeOps (SegmentState.shaped_closed _)
      (SegmentState.ofVariables_shaped _ _) ?_ (fun _ hs => ?_) (fun _ hs => hs.scalars.keys_eq)
      SegmentState.assign_eq (fun _ _ => rfl) hg
      fun _ hv _ hx => SegmentState.mem_keys_ofVariables hv hx
    · rintro (h | h)
      · exact h
      · cases h
    · exact Prod.ext hs.scalars.keys_eq hs.contents.keys_eq

open Graph.Counting in
/-- The counting loop assigns to its counter and tests it, and whatever it assigns is found afterwards. -/
theorem losesNothing_ofVariables_counting :
    let a := IntervalState.forward Graph.Counting.graph {} Graph.Counting.graph.vars.toList
    a.Assigns (.var counter) ∧ a.Tests (.compare (.var counter) .lt (.literal (.int 10))) ∧
    counter ∈ a.initial.store.keys ∧
    ∀ s t right range, a.Handles s → s.assign (.var counter) right = .ok t → Extremal.isBottom t = false →
      evaluate s.environment right = .ok range → t.get? counter = some range := by
  intro a
  have hassigns : a.Assigns (.var counter) := by
    refine ⟨place, .var place counter, .literal place (.int 0), .statement (n := 0) ?_, rfl⟩
    exact List.mem_singleton_self reset
  have htests : a.Tests (.compare (.var counter) .lt (.literal (.int 10))) := by
    refine ⟨below, .guard (n := 2) (e := ⟨1, 2, .loopIn, some below⟩) ?_ rfl, rfl⟩
    exact List.mem_singleton_self _
  obtain ⟨hnothing, -⟩ := losesNothing_ofVariables build_eq .forward {} none
  refine ⟨hassigns, htests, ?_, fun s t right range hs => ?_⟩
  · exact hnothing.written_mem (.var counter) hassigns counter (Identifier.mem_scalars_self rfl)
  · exact hnothing.assigned_eq s t counter right range hs hassigns rfl

end Analysis

end FlowAnalysis
