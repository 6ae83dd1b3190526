import FlowAnalysis.Proofs.Evaluation.Soundness
import FlowAnalysis.Proofs.Interval.Constraints

/-!
Refinement is sound for conditions on numbers, lengths and members of containers. A condition that has the answer it
should have is not found infeasible, and every variable and every length that it constrains lies in the range that is
left for it. The induction follows the condition down with the answer that each part should have, and a connective that
its left side decides has no need of its right side. Lengths of ranges are counted with rounding, which goes wrong for
ranges over a distance of more than `2 ^ 53`; members of such ranges are found nevertheless. Lengths of concatenations
are added with rounding and must be doubles.
-/

namespace FlowAnalysis

variable {reading : Reading} {σ : Bindings} {env : Environment} {e left right collection : Expr} {c d : Datum}
  {view : View} {x : Identifier}

/-! ### Numbers and lengths of variables -/

/-- The numbers of the variables and the lengths of the sequences and containers among them. -/
inductive Bindings.Has (σ : Bindings) : Identifier → Rat → Prop where
  | number {x : Identifier} {n : Number} (hx : σ.value? x = some (.number n)) : Has σ x n.value
  | length {x : Identifier} {c : Datum} {n : Nat} (hx : σ.value? x = some c) (hlength : x.hasLength = true)
      (hn : c.size? = some n) : Has σ x.lengthOf n

theorem Bindings.eq_of_name {y : Identifier} (hx : σ.value? x = some c) (hy : σ.value? y = some d)
    (hname : x.name = y.name) : x = y :=
  σ.distinct x y (Option.isSome_of_eq_some hx) (Option.isSome_of_eq_some hy) hname

/-- A length has the name of a variable, so that it is none itself. -/
theorem Bindings.ne_lengthOf {y : Identifier} (hx : σ.value? x = some c) (hy : σ.value? y = some d)
    (hlength : y.hasLength = true) : x ≠ y.lengthOf := by
  rintro rfl
  rw [← σ.eq_of_name hx hy rfl] at hlength
  cases hlength

theorem Bindings.Has.unique {q r : Rat} (hq : σ.Has x q) (hr : σ.Has x r) : q = r := by
  cases hq with
  | number hx =>
      cases hr with
      | number hx' =>
          cases hx.symm.trans hx'
          rfl
      | length hy hlength hn => exact absurd rfl (σ.ne_lengthOf hx hy hlength)
  | @length y c n hy hlength hn =>
      generalize heq : y.lengthOf = z at hr
      cases hr with
      | number hx => exact absurd heq.symm (σ.ne_lengthOf hx hy hlength)
      | @length z d k hz _ hk =>
          have hname : y.lengthOf.name = z.lengthOf.name := congrArg Identifier.name heq
          obtain rfl := σ.eq_of_name hy hz hname
          cases hy.symm.trans hz
          cases hn.symm.trans hk
          rfl

def Bindings.quantities (σ : Bindings) : Quantities := ⟨σ.Has, Bindings.Has.unique⟩

/-- Numbers of integral types are whole. -/
theorem Datum.OfKind.whole {type : Ty} {n : Number} (h : (Datum.number n).OfKind type)
    (htype : type.isIntegral = true) : ∃ k : Int, n.value = k := by
  cases type with
  | bool =>
      obtain ⟨holds, heq⟩ := h
      obtain rfl := Datum.number.inj heq
      cases holds with
      | false => exact ⟨0, rfl⟩
      | true => exact ⟨1, rfl⟩
  | int =>
      obtain ⟨m, heq, hwhole⟩ := h
      obtain rfl := Datum.number.inj heq
      exact hwhole
  | _ => cases htype

/-- What a condition on an expression can narrow is the variable that the expression reads, or its length. -/
theorem Expr.Yields.refinable {n : Number} (h : e.Yields reading σ (.number n)) (hx : e.refinable? = some x) :
    σ.quantities.Has x n.value := by
  cases h with
  | var hy =>
      obtain ⟨-, hx⟩ := Option.ite_none_right_eq_some.1 hx
      obtain rfl := Option.some.inj hx
      exact .number hy
  | length htarget hsize hn =>
      cases htarget with
      | var hy =>
          obtain ⟨hlength, hx⟩ := Option.ite_none_right_eq_some.1 hx
          obtain rfl := Option.some.inj hx
          rw [hn]
          exact .length hy hlength hsize
      | _ => cases hx
  | _ => cases hx

theorem Expr.Yields.amounts {n : Number} (henv : env.Knows σ) (h : e.Yields .strict σ (.number n))
    (hkind : (Datum.number n).OfKind e.type) : e.Amounts env σ.quantities n.value where
  mem := (henv.holds_strict h).value
  isDouble := n.isDouble
  whole := hkind.whole
  refinable _ := h.refinable

/-! ### Members -/

namespace Datum

/-- What a view of a container holds. The keys of a sequence are its positions, and both views of a set hold its
members. -/
inductive Member : View → Datum → Datum → Prop where
  | listItem {items : List Datum} {d : Datum} (h : d ∈ items) : Member .values (list items) d
  | listPosition {items : List Datum} {x : Number} (h : x.value ∈ positions items.length) :
      Member .keys (list items) (number x)
  | tupleItem {items : List Datum} {d : Datum} (h : d ∈ items) : Member .values (tuple items) d
  | tuplePosition {items : List Datum} {x : Number} (h : x.value ∈ positions items.length) :
      Member .keys (tuple items) (number x)
  | element {view : View} {members : List Datum} {d : Datum} (h : d ∈ members) : Member view (set members) d
  | key {entries : List (Datum × Datum)} {key item : Datum} (h : (key, item) ∈ entries) :
      Member .keys (dict entries) key
  | value {entries : List (Datum × Datum)} {key item : Datum} (h : (key, item) ∈ entries) :
      Member .values (dict entries) item

/-- The numbers that a view of a container holds. -/
def viewed : View → Datum → List Rat
  | .keys, c => c.keys
  | .values, c => c.values

theorem Member.mem_viewed {n : Number} (h : Member view c (number n)) : n.value ∈ c.viewed view := by
  cases h with
  | listItem h => exact mem_numbers.2 ⟨n, h, rfl⟩
  | listPosition h => exact h
  | tupleItem h => exact mem_numbers.2 ⟨n, h, rfl⟩
  | tuplePosition h => exact h
  | element h =>
      cases view with
      | keys => exact mem_numbers.2 ⟨n, h, rfl⟩
      | values => exact mem_numbers.2 ⟨n, h, rfl⟩
  | key h => exact mem_numbers.2 ⟨n, List.mem_map_of_mem h, rfl⟩
  | value h => exact mem_numbers.2 ⟨n, List.mem_map_of_mem h, rfl⟩

/-- A container with a member is not empty. -/
theorem Member.size_pos (h : Member view c d) : ∃ n, c.size? = some n ∧ 0 < n := by
  have hposition : ∀ {n : Nat} {q : Rat}, q ∈ positions n → 0 < n := by
    intro n q hq
    obtain ⟨i, hi, -⟩ := List.mem_map.1 hq
    exact Nat.zero_lt_of_lt (List.mem_range.1 hi)
  cases h with
  | listItem h => exact ⟨_, rfl, List.length_pos_of_mem h⟩
  | listPosition h => exact ⟨_, rfl, hposition h⟩
  | tupleItem h => exact ⟨_, rfl, List.length_pos_of_mem h⟩
  | tuplePosition h => exact ⟨_, rfl, hposition h⟩
  | element h => exact ⟨_, rfl, List.length_pos_of_mem h⟩
  | key h => exact ⟨_, rfl, List.length_pos_of_mem h⟩
  | value h => exact ⟨_, rfl, List.length_pos_of_mem h⟩

end Datum

/-- An environment that knows the members of containers as well. -/
structure Environment.KnowsMembers (env : Environment) (σ : Bindings) : Prop extends env.Knows σ where
  members : ∀ x c view, σ.value? x = some c → x.hasLength = true → x.type ≠ .str →
    (∀ q ∈ c.viewed view, q ∈ env.members x view) ∧ (c.size? ≠ some 0 → (env.members x view).isBottom = false)

/-- A container with a member is not taken for empty, and the range of its members leaves room for the member. -/
theorem Environment.KnowsMembers.membersOf? (henv : env.KnowsMembers σ) (hx : σ.value? x = some c)
    (hlength : x.hasLength = true) (htype : x.type ≠ .str) (hmember : c.Member view d) :
    ∃ range, membersOf? env x view = some range ∧ d.Allowed range := by
  obtain ⟨n, hn, hpos⟩ := hmember.size_pos
  obtain ⟨hnumbers, hproper⟩ := henv.members x c view hx hlength htype
  have hupper : (env.value x.lengthOf).upper ≠ 0 := by
    intro hzero
    have hle := (Interval.mem_iff.1 (henv.length x c n hx hlength hn)).2
    rw [hzero] at hle
    have hnonpos : (n : Rat) ≤ 0 := Bound.fin_le_fin.1 hle
    exact absurd (Nat.cast_pos.2 hpos) (not_lt.2 hnonpos)
  refine ⟨_, if_neg hupper, ?_⟩
  cases d with
  | number m => exact hnumbers _ hmember.mem_viewed
  | _ =>
      refine hproper fun hzero => ?_
      rw [hn] at hzero
      exact hpos.ne' (Option.some.inj hzero)

namespace Expr

def viewed? : Expr → Option (Identifier × View)
  | .var x => some (x, .ofMembership x.type)
  | .keys (.var x) => some (x, .keys)
  | .values (.var x) => some (x, .values)
  | _ => none

/-- Whether a value is a member of a range, a display, a variable or a view of a variable. -/
inductive Membership (reading : Reading) (σ : Bindings) : Expr → Datum → Bool → Prop where
  | range {start stop step : Expr} {x y z : Number} {i j k : Int} {d : Datum} {holds : Bool}
      (hstart : start.Yields reading σ (.number x)) (hstop : stop.Yields reading σ (.number y))
      (hstep : step.Yields reading σ (.number z)) (hx : x.value = i) (hy : y.value = j) (hz : z.value = k)
      (hne : k ≠ 0) (hmember : holds = true ↔ ∃ m ∈ steps i j k, d.number? = some (m : Rat)) :
      Membership reading σ (.range start stop step) d holds
  | list {type : Ty} {items : List Expr} {values : List Datum} {d : Datum} {holds : Bool}
      (hlength : items.length = values.length) (hitems : ∀ pair ∈ items.zip values, pair.1.Yields reading σ pair.2)
      (hmember : holds = true ↔ d ∈ values) : Membership reading σ (.list type items) d holds
  | set {type : Ty} {items : List Expr} {values : List Datum} {d : Datum} {holds : Bool}
      (hlength : items.length = values.length) (hitems : ∀ pair ∈ items.zip values, pair.1.Yields reading σ pair.2)
      (hmember : holds = true ↔ d ∈ values) : Membership reading σ (.set type items) d holds
  | view {collection : Expr} {x : Identifier} {view : View} {c d : Datum} {holds : Bool}
      (hview : collection.viewed? = some (x, view)) (hx : σ.value? x = some c) (hkind : c.OfKind x.type)
      (htype : x.type ≠ .str) (hmember : holds = true ↔ c.Member view d) : Membership reading σ collection d holds

/-- The answers that a condition may have. Values are of the kind that the types say. A connective that its left side
decides has an answer even if its right side has none. -/
inductive Answers (reading : Reading) (σ : Bindings) : Expr → Bool → Prop where
  | literal {value : Literal} {d : Datum} (hvalue : (Expr.literal value).Yields reading σ d) :
      Answers reading σ (.literal value) d.truthy
  | input {type : Ty} {d : Datum} (hkind : d.OfKind type) : Answers reading σ (.input type) d.truthy
  | var {x : Identifier} {d : Datum} (hx : σ.value? x = some d) (hkind : d.OfKind x.type) :
      Answers reading σ (.var x) d.truthy
  | not {operand : Expr} {holds : Bool} (hoperand : Answers reading σ operand holds) :
      Answers reading σ (.not operand) !holds
  | connective {left right : Expr} {op : Connective} {p q : Bool} (hleft : Answers reading σ left p)
      (hright : Answers reading σ right q) : Answers reading σ (.connective left op right) (op.holds p q)
  | decided {left right : Expr} {op : Connective} (hleft : Answers reading σ left op.decidedBy) :
      Answers reading σ (.connective left op right) op.decidedBy
  | compare {left right : Expr} {op : Comparison} {c d : Datum} {holds : Bool} (hop : op ∉ [.isIn, .notIn])
      (hleft : left.Yields reading σ c) (hright : right.Yields reading σ d) (hc : c.OfKind left.type)
      (hd : d.OfKind right.type) (hresult : op.Decides c d holds) : Answers reading σ (.compare left op right) holds
  | isIn {item collection : Expr} {d : Datum} {holds : Bool} (hitem : item.Yields reading σ d)
      (hmember : collection.Membership reading σ d holds) : Answers reading σ (.compare item .isIn collection) holds
  | notIn {item collection : Expr} {d : Datum} {holds : Bool} (hitem : item.Yields reading σ d)
      (hmember : collection.Membership reading σ d holds) : Answers reading σ (.compare item .notIn collection) !holds

/-- The candidates of a view are the members of its variable. -/
theorem candidates?_of_viewed (h : e.viewed? = some (x, view)) :
    candidates? env e = pure (if x.hasLength then membersOf? env x view else some .top) := by
  unfold viewed? at h
  split at h
  · cases h
    rfl
  · cases h
    rfl
  · cases h
    rfl
  · cases h

/-- A collection with a member has candidates, whose range leaves room for the member. -/
theorem Membership.candidates {found : Option Interval} (henv : env.KnowsMembers σ)
    (h : collection.Membership .strict σ d true) (hfound : candidates? env collection = .ok found) :
    ∃ range, found = some range ∧ d.Allowed range := by
  have hdisplay : ∀ {items : List Expr} {values : List Datum} {found : Option Interval},
      items.length = values.length → (∀ pair ∈ items.zip values, pair.1.Yields .strict σ pair.2) → d ∈ values →
      (if items.isEmpty then pure none else do let joined ← evaluateJoined env items; return some joined :
        Outcome (Option Interval)) = .ok found → ∃ range, found = some range ∧ d.Allowed range := by
    intro items values found hlength hitems hd hfound
    have hne : ¬ items.isEmpty = true := by
      rw [List.isEmpty_iff_length_eq_zero, hlength]
      exact (List.length_pos_of_mem hd).ne'
    rw [if_neg hne] at hfound
    obtain ⟨joined, hjoined, hfound⟩ := bind_eq_ok.1 hfound
    obtain rfl := pure_eq_ok.1 hfound
    exact ⟨joined, rfl, allowed_evaluateJoined hlength (fun pair hpair => henv.holds_strict (hitems pair hpair))
      hjoined hd⟩
  cases h with
  | range hstart hstop hstep hx hy hz hne hmember =>
      rw [candidates?] at hfound
      obtain ⟨first, hfirst, hfound⟩ := bind_eq_ok.1 hfound
      obtain ⟨last, hlast, hfound⟩ := bind_eq_ok.1 hfound
      obtain ⟨stride, hstride, hfound⟩ := bind_eq_ok.1 hfound
      obtain rfl := pure_eq_ok.1 hfound
      obtain ⟨m, hm, hd⟩ := hmember.1 rfl
      cases d with
      | number n =>
          have hvalue : n.value = m := Option.some.inj hd
          refine ⟨_, rfl, ?_⟩
          have hmem := Interval.mem_stepsWithin (hvalue ▸ n.isDouble) hm ((henv.holds_strict hstart).mem hx hfirst)
            ((henv.holds_strict hstop).mem hy hlast) ((henv.holds_strict hstep).mem hz hstride)
          rwa [← hvalue] at hmem
      | _ => cases hd
  | list hlength hitems hmember => exact hdisplay hlength hitems (hmember.1 rfl) hfound
  | set hlength hitems hmember => exact hdisplay hlength hitems (hmember.1 rfl) hfound
  | view hview hx hkind htype hmember =>
      rw [candidates?_of_viewed hview] at hfound
      obtain rfl := pure_eq_ok.1 hfound
      split
      · rename_i hlength
        exact henv.membersOf? hx hlength htype (hmember.1 rfl)
      · exact ⟨.top, rfl, d.in_top.allowed_of_le (Interval.upperBounds.le_refl _)⟩

end Expr

/-! ### Conditions -/

/-- An item that is a member of a collection is constrained to the range of the members. -/
theorem refineMembership_admits {item : Expr} {r : Refinement} (henv : env.KnowsMembers σ)
    (hitem : item.Yields .strict σ d) (hmember : collection.Membership .strict σ d true)
    (h : refineMembership env item collection = .ok r) : r.Admits σ.quantities := by
  obtain ⟨found, hfound, h⟩ := bind_eq_ok.1 h
  obtain ⟨range, rfl, hallowed⟩ := hmember.candidates henv hfound
  dsimp only at h
  split at h
  · rename_i htype
    obtain ⟨a, ha, h⟩ := bind_eq_ok.1 h
    obtain rfl := pure_eq_ok.1 h
    obtain ⟨n, rfl⟩ := hitem.suits (Reading.strict_sound env).conforms htype
    have hn : n.value ∈ a := (henv.holds_strict hitem).value a ha
    exact Refinement.single_admits (Interval.mem_meet.2 ⟨hn, hallowed⟩) fun _ => hitem.refinable
  · obtain rfl := pure_eq_ok.1 h
    rw [hallowed.isBottom_eq_false]
    exact Refinement.unconstrained_admits

/-- A comparison that has an answer, or its opposite. -/
theorem refineCompare_admits {op : Comparison} {answer : Bool} {r : Refinement} (henv : env.Knows σ)
    (hop : op ∉ [.isIn, .notIn]) (hleft : left.Yields .strict σ c) (hright : right.Yields .strict σ d)
    (hc : c.OfKind left.type) (hd : d.OfKind right.type) (hresult : op.Decides c d answer)
    (h : refineCompare env left (if answer then op else op.negated) right = .ok r) : r.Admits σ.quantities := by
  have hr : r = .unconstrained ∨ refineNumeric env left (if answer then op else op.negated) right = .ok r := by
    cases op with
    | isIn => exact absurd (by decide) hop
    | notIn => exact absurd (by decide) hop
    | is => cases answer <;> exact Or.inl (pure_eq_ok.1 h).symm
    | isNot => cases answer <;> exact Or.inl (pure_eq_ok.1 h).symm
    | _ => cases answer <;> exact Or.inr h
  rcases hr with rfl | hr
  · exact Refinement.unconstrained_admits
  by_cases htypes : (left.type.isNumeric && right.type.isNumeric) = true
  · have htypes' := Bool.and_eq_true_iff.1 htypes
    obtain ⟨x, rfl⟩ := hc.suits htypes'.1
    obtain ⟨y, rfl⟩ := hd.suits htypes'.2
    obtain rfl : answer = op.holds x.value y.value := hresult
    exact refineNumeric_admits (hleft.amounts henv hc) (hright.amounts henv hd) (op.holds_answered _ _) hr
  · exact refineNumeric_eq_unconstrained htypes hr ▸ Refinement.unconstrained_admits

/-- What follows from a condition that should have an answer is the case if it has the answer. -/
theorem refineAnswer_admits {answer : Bool} {r : Refinement} (henv : env.KnowsMembers σ)
    (he : e.Answers .strict σ answer) (h : refineAnswer env e answer = .ok r) : r.Admits σ.quantities := by
  -- where a condition constrains nothing by itself only its truth value counts
  have hvalue : ∀ {e : Expr} {d : Datum} {r : Refinement}, e.Yields .strict σ d →
      (do let value ← evaluate env e; return refineTruth value d.truthy) = Except.ok r → r.Admits σ.quantities := by
    intro e d r he h
    obtain ⟨a, ha, h⟩ := bind_eq_ok.1 h
    obtain rfl := pure_eq_ok.1 h
    exact refineTruth_admits ((henv.holds_strict he).value a ha).truth
  induction he generalizing r with
  | literal hliteral => exact hvalue hliteral h
  | input hkind => exact hvalue (.input hkind hkind.suits) h
  | @var x d hx hkind =>
      refine refineVariable_admits (fun a ha => ?_) (fun htrue hbool => ?_) (fun hfalse hnumeric => ?_) h
      · exact ((henv.holds_strict (.var hx)).value a ha).truth
      · rw [hbool] at hkind
        obtain ⟨holds, rfl⟩ := hkind
        cases holds with
        | true => exact .number hx
        | false => cases htrue
      · obtain ⟨n, rfl⟩ := hkind.suits hnumeric
        have hzero : n.value = 0 := not_not.1 (of_decide_eq_false hfalse)
        exact hzero ▸ .number hx
  | @not operand holds _ ih =>
      rw [refineAnswer, Bool.not_not] at h
      exact ih h
  | connective _ _ ihleft ihright =>
      obtain ⟨l, hl, h⟩ := bind_eq_ok.1 h
      obtain ⟨m, hm, h⟩ := bind_eq_ok.1 h
      obtain rfl := pure_eq_ok.1 h
      refine Refinement.connective_admits rfl (fun hp => ihleft ?_) (fun hq => ihright ?_)
      · rw [hp]
        exact hl
      · rw [hq]
        exact hm
  | @decided left right op _ ih =>
      obtain ⟨l, hl, h⟩ := bind_eq_ok.1 h
      obtain ⟨m, hm, h⟩ := bind_eq_ok.1 h
      obtain rfl := pure_eq_ok.1 h
      -- both connectives turn into a disjunction, of which the left part has the answer
      cases op with
      | and => exact Refinement.or_admits (Or.inl (ih hl))
      | or => exact Refinement.or_admits (Or.inl (ih hl))
  | compare hop hleft hright hc hd hresult => exact refineCompare_admits henv.toKnows hop hleft hright hc hd hresult h
  | @isIn item collection d holds hitem hmember =>
      cases holds with
      | true => exact refineMembership_admits henv hitem hmember h
      | false => exact pure_eq_ok.1 h ▸ Refinement.unconstrained_admits
  | @notIn item collection d holds hitem hmember =>
      cases holds with
      | true => exact refineMembership_admits henv hitem hmember h
      | false => exact pure_eq_ok.1 h ▸ Refinement.unconstrained_admits

namespace Pair

theorem environment_knowsMembers : environment.KnowsMembers bindings where
  toKnows := environment_knows
  members x c view hx _ _ := by
    obtain ⟨rfl, rfl⟩ := Bindings.single_eq_some.1 hx
    refine ⟨fun q hq => ?_, fun _ => rfl⟩
    have hsmall : q ∈ ([0, 1, 3, 4] : List Rat) := by
      cases view with
      | keys => exact List.mem_of_mem_take (i := 2) hq
      | values => exact List.mem_of_mem_drop (i := 2) hq
    simp only [List.mem_cons, List.not_mem_nil, or_false] at hsmall
    rcases hsmall with rfl | rfl | rfl | rfl <;>
      exact Interval.mem_of_fin (by decide) (by decide)

/-- The condition `not (xs[-1] not in xs) and (len(xs) < 3 or xs[7] == 0)`. -/
def short : Expr :=
  .connective (.not (.compare last .notIn (.var xs))) .and
    (.connective (.compare (.length (.var xs)) .lt (.literal (.int 3))) .or
      (.compare (.item .int (.var xs) (.literal (.int 7))) .eq (.literal (.int 0))))

/-- The condition is true without a look at `xs[7]`. -/
theorem answers_short : short.Answers .strict bindings true := by
  have hlength : (Expr.length (.var xs)).Yields .strict bindings (.number (.ofInt 2 (by decide))) :=
    .length (.var value_xs) rfl rfl
  have hmember : (Expr.var xs).Membership .strict bindings (.number four) true :=
    .view rfl value_xs ⟨_, rfl⟩ (by decide) (iff_of_true rfl (.listItem (by simp)))
  have hlast : (Expr.not (.compare last .notIn (.var xs))).Answers .strict bindings true :=
    .not (.notIn yields_last hmember)
  have hshort : (Expr.compare (.length (.var xs)) .lt (.literal (.int 3))).Answers .strict bindings true := by
    refine .compare (by decide) hlength (.int 3 (by decide)) ⟨_, rfl, 2, rfl⟩ ⟨_, rfl, 3, rfl⟩ ?_
    change true = Comparison.lt.holds ((2 : Int) : Rat) (3 : Int)
    decide +kernel
  exact .connective hlast (.decided hshort)

end Pair

/-- Refinement is sound: if a condition is true and the environment knows the variables and the members of containers,
then the condition is not found infeasible, and every number and every length lies in the range that is left for it.
Ranges are counted over a distance of at most `2 ^ 53`, and the length of a concatenation is a double. -/
theorem refinement_sound {r : Refinement} (henv : env.KnowsMembers σ) (he : e.Answers .strict σ true)
    (h : refine env e = .ok r) : r.Admits σ.quantities :=
  refineAnswer_admits henv he h

/-- The length of `xs` is found to be at most two, as it is. -/
theorem refinement_sound_short :
    Pair.environment.KnowsMembers Pair.bindings ∧ Pair.short.Answers .strict Pair.bindings true ∧
      ∃ r, refine Pair.environment Pair.short = .ok r ∧
        Refinement.same (.single (some Pair.xs.lengthOf) (.of 0 2)) r = true ∧ r.Admits Pair.bindings.quantities := by
  have hsame : (refine Pair.environment Pair.short).toOption.any
      (Refinement.same (.single (some Pair.xs.lengthOf) (.of 0 2))) = true := by decide +kernel
  obtain ⟨r, hr, hsame⟩ := (Option.any_eq_true _ _).1 hsame
  have hrefine := toOption_eq_some.1 hr
  exact ⟨Pair.environment_knowsMembers, Pair.answers_short, r, hrefine, hsame,
    refinement_sound Pair.environment_knowsMembers Pair.answers_short hrefine⟩

/-- Ranges are counted between any two whole numbers below `2 ^ 53`. -/
def Reading.wide : Reading := { strict with counts := fun a b _ => |a| < 2 ^ 53 ∧ |b| < 2 ^ 53 }

namespace Pair

/-- The condition `len(range(-9007199254740991, 9007199254740990, 3)) == 6004799503160661`. -/
def counted : Expr :=
  let numbers : Expr := .range (.literal (.int (-9007199254740991))) (.literal (.int 9007199254740990)) (.literal (.int 3))
  .compare (.length numbers) .eq (.literal (.int 6004799503160661))

theorem answers_counted : counted.Answers .wide bindings true := by
  have hstart : |(-9007199254740991 : Int)| ≤ 2 ^ 53 := by decide
  have hstop : |(9007199254740990 : Int)| ≤ 2 ^ 53 := by decide
  have hstep : |(3 : Int)| ≤ 2 ^ 53 := by decide
  have hcount : |(6004799503160661 : Int)| ≤ 2 ^ 53 := by decide
  obtain ⟨items, hitems⟩ := exists_numbers_of_steps (c := 3) hstart hstop (by decide)
  have hrange : Expr.Yields .wide bindings (.range (.literal (.int (-9007199254740991))) (.literal (.int 9007199254740990))
      (.literal (.int 3))) (.list (items.map .number)) :=
    .range (.int _ hstart) (.int _ hstop) (.int _ hstep) rfl rfl rfl ⟨by decide, by decide⟩ (by decide) hitems
  have hlength : (items.map Datum.number).length = 6004799503160661 := by
    rw [List.length_map, length_eq_of_steps hitems, length_steps]
    decide +kernel
  have hsize : ((6004799503160661 : Int) : Rat) = (6004799503160661 : Nat) := Int.cast_natCast _
  refine .compare (by decide) (.length hrange (congrArg some hlength) (x := .ofInt _ hcount) hsize) (.int _ hcount)
    ?_ ?_ ?_
  · exact ⟨_, rfl, _, rfl⟩
  · exact ⟨_, rfl, _, rfl⟩
  · change true = Comparison.eq.holds ((6004799503160661 : Int) : Rat) (6004799503160661 : Int)
    decide +kernel

end Pair

/-- The distance of a long range is rounded before it is divided: a condition that is true is found infeasible. -/
theorem refinement_loses_counted :
    Pair.environment.KnowsMembers Pair.bindings ∧ Pair.counted.Answers .wide Pair.bindings true ∧
      refine Pair.environment Pair.counted = .ok .infeasible := by
  have hsame : (refine Pair.environment Pair.counted).toOption.any (Refinement.same .infeasible) = true := by
    decide +kernel
  obtain ⟨r, hr, hsame⟩ := (Option.any_eq_true _ _).1 hsame
  cases r with
  | infeasible => exact ⟨Pair.environment_knowsMembers, Pair.answers_counted, toOption_eq_some.1 hr⟩
  | constrain ranges => cases hsame

end FlowAnalysis
