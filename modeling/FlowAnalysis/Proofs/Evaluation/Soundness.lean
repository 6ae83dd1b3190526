import FlowAnalysis.Proofs.Evaluation.Meaning
import FlowAnalysis.Proofs.Numeric.Evaluation

/-!
Evaluation is sound. If an environment knows the numbers, the lengths and the items of the variables, the range of an
expression holds its value and the range of its length holds its length. Both ask for a value of every part of the
expression, and where an operand goes without one its range must at least not be empty: an operand that is infeasible
makes a connective infeasible even where the other operand decides it.
-/

namespace FlowAnalysis

namespace Interval

variable {a b : Interval}

theorem natCast_mem_nonNegative (n : Nat) : (n : Rat) ∈ nonNegative :=
  mem_of.2 ⟨Bound.fin_le_fin.2 (Nat.cast_nonneg n), Bound.le_posInf _⟩

theorem mem_of_fin {x y q : Rat} (hx : x ≤ q) (hy : q ≤ y) : q ∈ of (.fin x) (.fin y) :=
  mem_of.2 ⟨Bound.fin_le_fin.2 hx, Bound.fin_le_fin.2 hy⟩

/-- The range for the number of distinct items holds it. -/
theorem mem_distinct {n k : Nat} (hle : k ≤ n) (hpos : 0 < n → 0 < k) : (k : Rat) ∈ distinct n := by
  refine mem_of.2 ⟨?_, Bound.fin_le_fin.2 (by exact_mod_cast hle)⟩
  split
  · exact Bound.fin_le_fin.2 (by exact_mod_cast Nat.zero_le k)
  · rename_i hn
    exact Bound.fin_le_fin.2 (by exact_mod_cast hpos (Nat.pos_of_ne_zero hn))

/-- Only bottom has the truth value of no number. -/
theorem isBottom_truthValue (a : Interval) : a.truthValue.isBottom = a.isBottom := by
  unfold truthValue
  cases hbottom : a.isBottom with
  | true => exact hbottom
  | false =>
      rw [Bool.false_or]
      split_ifs
      · exact hbottom
      · rfl
      · rfl

/-- The truth value of a range that is not empty holds false or true. -/
theorem exists_mem_truthValue (h : a.isBottom = false) : ∃ p, truthNumber p ∈ a.truthValue := by
  obtain ⟨x, hx⟩ := exists_mem h
  exact ⟨_, mem_truthValue hx⟩

/-- A connective holds the truth value that its left side decides on, unless its right side is infeasible. -/
theorem mem_connective_decided {op : Connective} (ha : truthNumber op.decidedBy ∈ a)
    (hb : b.isBottom = false) : truthNumber op.decidedBy ∈ connective op a b.truthValue := by
  obtain ⟨p, hp⟩ := exists_mem_truthValue hb
  have hmem := mem_connective op ha hp
  cases op with
  | and => exact hmem
  | or => exact hmem

end Interval

variable {reading : Reading} {σ : Bindings} {env : Environment} {e : Expr} {d : Datum} {a : Interval}

/-! ### Values and ranges -/

namespace Datum

/-- Whether a range holds a value. What is not a number is only in the range that holds everything. -/
def In : Datum → Interval → Prop
  | number x, a => x.value ∈ a
  | _, a => a = .top

/-- Whether a range leaves room for a value: it holds a number, and it is not empty for any other value. -/
def Allowed : Datum → Interval → Prop
  | number x, a => x.value ∈ a
  | _, a => a.isBottom = false

theorem in_top (d : Datum) : d.In .top := by
  cases d with
  | number x => exact Interval.mem_top
  | _ => rfl

theorem In.truth (h : d.In a) : truthNumber d.truthy ∈ a.truthValue := by
  cases d with
  | number x => exact Interval.mem_truthValue h
  | _ =>
      obtain rfl : a = .top := h
      exact Interval.truthNumber_mem_maybe _

theorem In.isBottom_eq_false (h : d.In a) : a.isBottom = false := by
  cases d with
  | number x => exact Interval.isBottom_eq_false_of_mem h
  | _ =>
      obtain rfl : a = .top := h
      rfl

theorem Allowed.isBottom_eq_false (h : d.Allowed a) : a.isBottom = false := by
  cases d with
  | number x => exact Interval.isBottom_eq_false_of_mem h
  | _ => exact h

end Datum

/-- An environment that knows the values of variables: their numbers, their lengths, and what is found under a key. -/
structure Environment.Knows (env : Environment) (σ : Bindings) : Prop where
  number : ∀ x n, σ.value? x = some (.number n) → x.type.isNumeric = true → n.value ∈ env.value x
  length : ∀ x c n, σ.value? x = some c → x.hasLength = true → c.size? = some n → (n : Rat) ∈ env.value x.lengthOf
  element : ∀ x c key item range, σ.value? x = some c → x.hasLength = true → c.Item key item → key.In range →
    item.Allowed (env.element x range)

/-- What a subscription finds is in its range. -/
theorem Environment.Knows.itemOf {type : Ty} {target : Expr} {c key item : Datum} {range : Interval}
    (henv : env.Knows σ) (htarget : target.Yields reading σ c) (hkey : key.In range) (hitem : c.Item key item)
    (hsuits : item.Suits type) : item.In (env.itemOf type target range) := by
  unfold Environment.itemOf
  split
  · rename_i x
    cases htarget with
    | var hx =>
        split
        · rename_i hlength
          have hallowed := henv.element x c key item range hx hlength hitem hkey
          dsimp only
          rw [hallowed.isBottom_eq_false, Bool.or_false]
          split
          · rename_i htype
            obtain ⟨y, rfl⟩ := hsuits htype
            exact hallowed
          · exact item.in_top
        · exact item.in_top
  · exact item.in_top

/-! ### Lengths -/

/-- The length of a concatenation is the sum of the lengths, and no number has a length. -/
theorem Arithmetic.Combines.size {op : Arithmetic} {c r : Datum} {n : Nat} (h : op.Combines c d r)
    (hn : r.size? = some n) : op = .add ∧ ∃ j k, c.size? = some j ∧ d.size? = some k ∧ n = j + k := by
  cases h with
  | number _ _ => cases hn
  | text a b => exact ⟨rfl, _, _, rfl, rfl, (Option.some.inj hn).symm.trans (String.length_append ..)⟩
  | list xs ys => exact ⟨rfl, _, _, rfl, rfl, (Option.some.inj hn).symm.trans List.length_append⟩
  | tuple xs ys => exact ⟨rfl, _, _, rfl, rfl, (Option.some.inj hn).symm.trans List.length_append⟩

/-- A stride that is absent is one. -/
theorem Number.floor_getD_ne_zero {k : Option Number} (hwhole : ∀ x ∈ k, ∃ n : Int, x.value = n)
    (hne : ∀ x ∈ k, x.value ≠ 0) : (k.map (⌊·.value⌋)).getD 1 ≠ 0 := by
  cases k with
  | none => decide
  | some x =>
      obtain ⟨n, hn⟩ := hwhole x rfl
      have hx := hne x rfl
      rw [Option.map_some, Option.getD_some, hn, Int.floor_intCast]
      rintro rfl
      exact hx (hn.trans Int.cast_zero)

/-- A sequence has a slice that is not longer. -/
theorem Datum.size_slice? {lower upper : Option Int} {stride : Int} {c : Datum} {n : Nat} (hstride : stride ≠ 0)
    (h : c.slice? lower upper stride = some d) (hn : d.size? = some n) :
    ∃ k, c.size? = some k ∧ n ≤ k := by
  cases c with
  | text content =>
      obtain rfl := Option.some.inj h
      refine ⟨_, rfl, ?_⟩
      obtain rfl := Option.some.inj hn
      rw [String.length_ofList]
      exact length_sliced_le hstride
  | list items =>
      obtain rfl := Option.some.inj h
      obtain rfl := Option.some.inj hn
      exact ⟨_, rfl, length_sliced_le hstride⟩
  | tuple items =>
      obtain rfl := Option.some.inj h
      obtain rfl := Option.some.inj hn
      exact ⟨_, rfl, length_sliced_le hstride⟩
  | _ => cases h

/-! ### Evaluation -/

/-- The range of an expression holds a value, and the range of its length holds the length of the value. -/
structure Environment.Holds (env : Environment) (e : Expr) (d : Datum) : Prop where
  value : ∀ a, evaluate env e = .ok a → d.In a
  size : ∀ a n, length env e = .ok a → d.size? = some n → (n : Rat) ∈ a

namespace Environment.Holds

variable {left right : Expr} {c r : Datum} {x : Number} {type : Ty}

/-- A number has no length. -/
theorem of_number (h : ∀ a, evaluate env e = .ok a → x.value ∈ a) : env.Holds e (.number x) :=
  ⟨h, fun _ _ _ hn => by cases hn⟩

theorem mem {q : Rat} (h : env.Holds e (.number x)) (hx : x.value = q) (ha : evaluate env e = .ok a) : q ∈ a :=
  hx ▸ h.value a ha

/-- The value of a sequence or container is not followed. -/
theorem of_size (htop : evaluate env e = pure .top)
    (h : ∀ a n, length env e = .ok a → d.size? = some n → (n : Rat) ∈ a) : env.Holds e d where
  value a ha := by
    rw [htop] at ha
    exact pure_eq_ok.1 ha ▸ d.in_top
  size := h

/-- The length of some expressions is not followed. -/
theorem of_value (hany : length env e = pure .nonNegative) (h : ∀ a, evaluate env e = .ok a → d.In a) :
    env.Holds e d where
  value := h
  size a n ha _ := by
    rw [hany] at ha
    exact pure_eq_ok.1 ha ▸ Interval.natCast_mem_nonNegative n

/-- A length that is known. -/
theorem of_exact {range : Interval} (htop : evaluate env e = pure .top) (hlength : length env e = pure range)
    (h : ∀ n, d.size? = some n → (n : Rat) ∈ range) : env.Holds e d := by
  refine of_size htop fun a n ha hn => ?_
  rw [hlength] at ha
  exact pure_eq_ok.1 ha ▸ h n hn

theorem var {y : Identifier} (henv : env.Knows σ) (hy : σ.value? y = some d) : env.Holds (.var y) d := by
  constructor
  · intro a ha
    rw [evaluate] at ha
    obtain rfl := pure_eq_ok.1 ha
    split
    · rename_i htype
      obtain ⟨n, rfl⟩ := σ.suits y d hy htype
      exact henv.number y n hy htype
    · exact d.in_top
  · intro a n ha hn
    rw [length] at ha
    obtain rfl := pure_eq_ok.1 ha
    split
    · rename_i hlength
      exact henv.length y d n hy hlength hn
    · exact Interval.natCast_mem_nonNegative n

theorem input (hkind : d.OfKind type) : env.Holds (.input type) d := by
  refine of_value rfl fun a ha => ?_
  rw [evaluate] at ha
  obtain rfl := pure_eq_ok.1 ha
  split
  · rename_i htype
    subst htype
    obtain ⟨holds, rfl⟩ := hkind
    exact Interval.truthNumber_mem_maybe holds
  · exact d.in_top

theorem set {items : List Expr} {values members : List Datum} (hlength : items.length = values.length)
    (hnodup : members.Nodup) (hmembers : ∀ x, x ∈ members ↔ x ∈ values) :
    env.Holds (.set type items) (.set members) := by
  refine of_exact rfl rfl fun n hn => ?_
  obtain rfl := Option.some.inj hn
  rw [hlength]
  refine Interval.mem_distinct ?_ fun hpos => ?_
  · exact (hnodup.subperm fun x hx => (hmembers x).1 hx).length_le
  · obtain ⟨x, hx⟩ := List.exists_mem_of_length_pos hpos
    exact List.length_pos_of_mem ((hmembers x).2 hx)

theorem range {start stop step : Expr} {x y z : Number} {i j k : Int} {items : List Number}
    (hstart : env.Holds start (.number x)) (hstop : env.Holds stop (.number y))
    (hstep : env.Holds step (.number z)) (hx : x.value = i) (hy : y.value = j) (hz : z.value = k)
    (hdistance : |j - i| ≤ 2 ^ 53) (hne : k ≠ 0)
    (hitems : items.map Number.value = (steps i j k).map Int.cast) :
    env.Holds (.range start stop step) (.list (items.map .number)) := by
  refine of_size rfl fun a n ha hn => ?_
  rw [length] at ha
  obtain ⟨first, hfirst, ha⟩ := bind_eq_ok.1 ha
  obtain ⟨last, hlast, ha⟩ := bind_eq_ok.1 ha
  obtain ⟨stride, hstride, ha⟩ := bind_eq_ok.1 ha
  obtain rfl := pure_eq_ok.1 ha
  have hfinite : |(k : Rat)| < Bound.overflow := hz ▸ (Bound.round_eq_fin z.isDouble).2
  obtain rfl := Option.some.inj hn
  rw [List.length_map, length_eq_of_steps hitems]
  exact Interval.mem_stepCount hdistance hfinite hne (hstart.mem hx hfirst) (hstop.mem hy hlast)
    (hstep.mem hz hstride)

theorem slice {lower upper stride : Option Expr} {i j : Option Int} {k : Int} (h : env.Holds e c) (hk : k ≠ 0)
    (hslice : c.slice? i j k = some d) : env.Holds (.slice type e lower upper stride) d := by
  refine of_size rfl fun a n ha hn => ?_
  rw [length] at ha
  obtain ⟨whole, hwhole, ha⟩ := bind_eq_ok.1 ha
  obtain rfl := pure_eq_ok.1 ha
  obtain ⟨size, hsize, hle⟩ := Datum.size_slice? hk hslice hn
  obtain ⟨-, hupper⟩ := Interval.mem_iff.1 (h.size _ _ hwhole hsize)
  refine Interval.mem_of.2 ⟨Bound.fin_le_fin.2 (Nat.cast_nonneg n), le_trans ?_ hupper⟩
  exact Bound.fin_le_fin.2 (Nat.cast_le.2 hle)

theorem signed {sign : Sign} (h : env.Holds e (.number x)) :
    env.Holds (.signed type sign e) (.number (sign.apply x)) := by
  refine of_number fun a ha => ?_
  rw [evaluate] at ha
  obtain ⟨range, hrange, ha⟩ := bind_eq_ok.1 ha
  cases sign with
  | plus =>
      obtain rfl := pure_eq_ok.1 ha
      exact h.value _ hrange
  | minus =>
      obtain rfl := pure_eq_ok.1 ha
      exact Interval.mem_neg (h.value _ hrange)

theorem not (h : env.Holds e d) : env.Holds (.not e) (.ofTruth !d.truthy) := by
  refine of_number fun a ha => ?_
  rw [evaluate] at ha
  obtain ⟨range, hrange, ha⟩ := bind_eq_ok.1 ha
  obtain rfl := pure_eq_ok.1 ha
  exact Interval.mem_negation (h.value _ hrange).truth

theorem arithmetic {op : Arithmetic} (hleft : env.Holds left c) (hright : env.Holds right d)
    (hresult : op.Combines c d r) (hsuits : r.Suits type)
    (hdouble : ∀ n, r.size? = some n → Bound.round n = .fin n) : env.Holds (.arithmetic type left op right) r := by
  constructor
  · intro a ha
    rw [evaluate] at ha
    split at ha
    · rename_i htype
      obtain ⟨range₁, hrange₁, ha⟩ := bind_eq_ok.1 ha
      obtain ⟨range₂, hrange₂, ha⟩ := bind_eq_ok.1 ha
      obtain rfl := pure_eq_ok.1 ha
      obtain ⟨z, rfl⟩ := hsuits htype
      cases hresult with
      | number hexact hround =>
          exact mem_arithmetic (hleft.value _ hrange₁) (hright.value _ hrange₂) ⟨_, hexact, hround⟩
    · exact pure_eq_ok.1 ha ▸ r.in_top
  · intro a n ha hn
    obtain ⟨rfl, j, k, hj, hk, rfl⟩ := hresult.size hn
    rw [length] at ha
    split at ha
    · obtain ⟨range₁, hrange₁, ha⟩ := bind_eq_ok.1 ha
      obtain ⟨range₂, hrange₂, ha⟩ := bind_eq_ok.1 ha
      obtain rfl := pure_eq_ok.1 ha
      refine Interval.mem_add (hleft.size _ _ hrange₁ hj) (hright.size _ _ hrange₂ hk) ?_
      rw [← Nat.cast_add]
      exact hdouble _ hn
    · exact pure_eq_ok.1 ha ▸ Interval.natCast_mem_nonNegative _

theorem connective {op : Connective} (hleft : env.Holds left c) (hright : env.Holds right d) :
    env.Holds (.connective left op right) (.ofTruth (op.holds c.truthy d.truthy)) := by
  refine of_number fun a ha => ?_
  rw [evaluate] at ha
  obtain ⟨range₁, hrange₁, ha⟩ := bind_eq_ok.1 ha
  obtain ⟨range₂, hrange₂, ha⟩ := bind_eq_ok.1 ha
  obtain rfl := pure_eq_ok.1 ha
  exact Interval.mem_connective _ (hleft.value _ hrange₁).truth (hright.value _ hrange₂).truth

theorem compare {op : Comparison} {holds : Bool} (hleft : env.Holds left c) (hright : env.Holds right d)
    (hc : c.Suits left.type) (hd : d.Suits right.type) (hresult : op.Decides c d holds) :
    env.Holds (.compare left op right) (.ofTruth holds) := by
  refine of_number fun a ha => ?_
  rw [evaluate] at ha
  split at ha
  · rename_i htypes
    obtain ⟨range₁, hrange₁, ha⟩ := bind_eq_ok.1 ha
    obtain ⟨range₂, hrange₂, ha⟩ := bind_eq_ok.1 ha
    obtain rfl := pure_eq_ok.1 ha
    rw [Bool.and_eq_true] at htypes
    obtain ⟨x, rfl⟩ := hc htypes.1
    obtain ⟨y, rfl⟩ := hd htypes.2
    obtain rfl : holds = op.holds x.value y.value := hresult
    exact Interval.mem_comparison op (hleft.value _ hrange₁) (hright.value _ hrange₂)
  · obtain rfl := pure_eq_ok.1 ha
    exact Interval.truthNumber_mem_maybe holds

end Environment.Holds

def Expr.Feasible (env : Environment) (e : Expr) : Prop := ∀ a, evaluate env e = .ok a → a.isBottom = false

/-- The truth value that the left side of a connective decides on, if the right side is feasible. -/
theorem Environment.Holds.decided {left right : Expr} {op : Connective} (hleft : env.Holds left d)
    (hright : right.Feasible env) (hdecides : d.truthy = op.decidedBy) :
    env.Holds (.connective left op right) (.ofTruth op.decidedBy) := by
  refine .of_number fun a ha => ?_
  rw [evaluate] at ha
  obtain ⟨range₁, hrange₁, ha⟩ := bind_eq_ok.1 ha
  obtain ⟨range₂, hrange₂, ha⟩ := bind_eq_ok.1 ha
  obtain rfl := pure_eq_ok.1 ha
  have htruth := (hleft.value _ hrange₁).truth
  rw [hdecides] at htruth
  exact Interval.mem_connective_decided htruth (hright _ hrange₂)

/-- What a reading asks for evaluation to be sound: ranges are counted over distances that are doubles, and
concatenations have lengths that are. What is skipped is feasible. -/
structure Reading.Sound (reading : Reading) (env : Environment) : Prop where
  conforms : ∀ d type, reading.conforms d type → d.Suits type
  views : ∀ view c d, reading.views view c d → d.size? = c.size?
  counts : ∀ a b c, reading.counts a b c → |b - a| ≤ 2 ^ 53
  joins : ∀ d type n, reading.conforms d type → d.size? = some n → reading.joins n → Bound.round n = .fin n
  skips : ∀ e, reading.skips e → e.Feasible env

theorem Reading.joining_sound {joins : Nat → Prop} (hjoins : ∀ n, joins n → Bound.round n = .fin n)
    (env : Environment) : (joining joins).Sound env where
  conforms _ _ h := h
  views _ _ _ h := h
  counts _ _ _ h := h
  joins _ _ n _ _ h := hjoins n h
  skips _ h := h.elim

theorem Reading.strict_sound (env : Environment) : strict.Sound env := joining_sound (fun _ h => h) env

/-- What is known of an expression holds its value. -/
theorem Environment.Knows.holds (henv : env.Knows σ) (hreading : reading.Sound env) (h : e.Yields reading σ d) :
    env.Holds e d := by
  induction h with
  | literal hvalue => exact .of_number fun a ha => evaluate_literal hvalue ha
  | text _ =>
      refine .of_exact rfl rfl fun n hn => ?_
      obtain rfl := Option.some.inj hn
      exact Interval.mem_point.2 (Int.cast_natCast _).symm
  | none => exact .of_exact rfl rfl fun n hn => by cases hn
  | var hx => exact .var henv hx
  | input hkind _ => exact .input hkind
  | list hlength _ _ =>
      refine .of_exact rfl rfl fun n hn => ?_
      obtain rfl := Option.some.inj hn
      exact Interval.mem_point.2 (hlength ▸ (Int.cast_natCast _).symm)
  | set hlength _ hnodup hmembers _ => exact .set hlength hnodup hmembers
  | dict hkeysLength _ _ _ hentries _ =>
      refine .of_exact rfl rfl fun n hn => ?_
      obtain rfl := Option.some.inj hn
      rw [hkeysLength]
      exact Interval.mem_distinct hentries.length.1 hentries.length.2
  | range _ _ _ hx hy hz hcounts hne hitems ihstart ihstop ihstep =>
      exact ihstart.range ihstop ihstep hx hy hz (hreading.counts _ _ _ hcounts) hne hitems
  | length _ hsize hx ih =>
      refine .of_number fun a ha => ?_
      rw [evaluate] at ha
      rw [hx]
      exact ih.size a _ ha hsize
  | keys _ hview ih => exact .of_size rfl fun a n ha hn => ih.size a n ha (hreading.views _ _ _ hview ▸ hn)
  | values _ hview ih => exact .of_size rfl fun a n ha hn => ih.size a n ha (hreading.views _ _ _ hview ▸ hn)
  | field _ => exact .of_value rfl fun a ha => by cases ha
  | item htarget _ hitem hconforms _ ihkey =>
      refine .of_value rfl fun a ha => ?_
      rw [evaluate] at ha
      obtain ⟨range, hrange, ha⟩ := bind_eq_ok.1 ha
      obtain rfl := pure_eq_ok.1 ha
      exact henv.itemOf htarget (ihkey.value _ hrange) hitem (hreading.conforms _ _ hconforms)
  | slice _ _ _ hwhole hstride hslice _ ih _ =>
      exact ih.slice (Number.floor_getD_ne_zero (fun x hx => hwhole x (Or.inr (Or.inr hx))) hstride) hslice
  | signed _ _ ih => exact ih.signed
  | not _ ih => exact ih.not
  | arithmetic _ _ hresult hconforms hjoins ihleft ihright =>
      refine ihleft.arithmetic ihright hresult (hreading.conforms _ _ hconforms) fun n hn => ?_
      exact hreading.joins _ _ n hconforms hn (hjoins n hn)
  | connective _ _ ihleft ihright => exact ihleft.connective ihright
  | decided hskips _ hdecides ih => exact ih.decided (hreading.skips _ hskips) hdecides
  | compare hleft hright hresult ihleft ihright =>
      exact ihleft.compare ihright (hleft.suits hreading.conforms) (hright.suits hreading.conforms) hresult

theorem Environment.Knows.holds_strict (henv : env.Knows σ) (h : e.Yields .strict σ d) : env.Holds e d :=
  henv.holds (Reading.strict_sound env) h

/-- The join of several ranges is above each of them. -/
theorem le_evaluateJoined {items : List Expr} {joined : Interval} (h : evaluateJoined env items = .ok joined)
    {item : Expr} (hitem : item ∈ items) : ∃ a, evaluate env item = .ok a ∧ a.le joined = true := by
  suffices hfold : ∀ start : Interval, items.foldlM (fun joined item => do
      let value ← evaluate env item
      return joined.join value) start = .ok joined →
      start.le joined = true ∧ ∀ item ∈ items, ∃ a, evaluate env item = .ok a ∧ a.le joined = true from
    (hfold _ h).2 item hitem
  clear h hitem
  induction items with
  | nil =>
      intro start h
      obtain rfl := pure_eq_ok.1 h
      exact ⟨Interval.upperBounds.le_refl start, List.forall_mem_nil _⟩
  | cons first rest ih =>
      intro start h
      obtain ⟨next, hnext, h⟩ := bind_eq_ok.1 h
      obtain ⟨a, ha, hnext⟩ := bind_eq_ok.1 hnext
      obtain rfl := pure_eq_ok.1 hnext
      obtain ⟨hle, hrest⟩ := ih _ h
      refine ⟨Interval.upperBounds.le_trans (Interval.le_join_left start a) hle, ?_⟩
      refine List.forall_mem_cons.2 ⟨⟨a, ha, ?_⟩, hrest⟩
      exact Interval.upperBounds.le_trans (Interval.le_join_right start a) hle

theorem Datum.In.allowed_of_le {b : Interval} (h : d.In a) (hle : a.le b = true) : d.Allowed b := by
  cases d with
  | number x => exact Interval.mem_of_le hle h
  | _ => exact Interval.isBottom_eq_false_of_le hle h.isBottom_eq_false

/-- The joined range of several expressions leaves room for every value that one of them has. -/
theorem allowed_evaluateJoined {items : List Expr} {values : List Datum} {joined : Interval}
    (hlength : items.length = values.length) (hitems : ∀ pair ∈ items.zip values, env.Holds pair.1 pair.2)
    (h : evaluateJoined env items = .ok joined) (hd : d ∈ values) : d.Allowed joined := by
  obtain ⟨i, hi, rfl⟩ := List.getElem_of_mem hd
  have hitem : i < items.length := hlength ▸ hi
  have hholds := hitems (items[i], values[i]) (List.mem_iff_getElem.2 ⟨i, by simp [hitem, hi], by simp⟩)
  obtain ⟨a, ha, hle⟩ := le_evaluateJoined h (List.getElem_mem hitem)
  exact (hholds.value a ha).allowed_of_le hle

/-! ### A list of two numbers -/

namespace Pair

def xs : Identifier := ⟨"xs", .list .int, .variable⟩

def three : Number := .ofInt 3 (by decide)

def four : Number := .ofInt 4 (by decide)

/-- The list `xs` is `[3, 4]`. -/
def bindings : Bindings := .single xs (.list [.number three, .number four]) fun h => by cases h

theorem value_xs : bindings.value? xs = some (.list [.number three, .number four]) :=
  Bindings.single_eq_some.2 ⟨rfl, rfl⟩

/-- Every length is at most nine, every item lies between three and four, and positions do not exceed these. -/
def environment : Environment where
  value _ := .of 0 9
  element _ _ := .of 3 4
  members _ _ := .of 0 4

theorem environment_knows : environment.Knows bindings where
  number x n hx htype := by
    obtain ⟨rfl, hn⟩ := Bindings.single_eq_some.1 hx
    cases hn
  length x c n hx _ hn := by
    obtain ⟨rfl, rfl⟩ := Bindings.single_eq_some.1 hx
    obtain rfl := Option.some.inj hn
    exact Interval.mem_of_fin (by decide) (by decide)
  element x c key item range hx _ hitem _ := by
    obtain ⟨rfl, rfl⟩ := Bindings.single_eq_some.1 hx
    cases hitem with
    | list _ hitem =>
        have hmem := List.mem_of_getElem? hitem
        rw [List.mem_cons, List.mem_singleton] at hmem
        rcases hmem with rfl | rfl
        · exact Interval.mem_of_fin (by decide) (by decide)
        · exact Interval.mem_of_fin (by decide) (by decide)

/-- The last item `xs[-1]`. -/
def last : Expr := .item .int (.var xs) (.signed .int .minus (.literal (.int 1)))

theorem yields_last : last.Yields .strict bindings (.number four) := by
  have hposition : Datum.Position 2 (-((1 : Int) : Rat)) 1 := ⟨by decide, Or.inr (by decide +kernel)⟩
  exact .item (.var value_xs) (.signed (.int 1 (by decide)) (Datum.suits_number _ _)) (.list hposition rfl)
    (Datum.suits_number _ _)

/-- The slice `xs[1:]`. -/
def tail : Expr := .slice (.list .int) (.var xs) (some (.literal (.int 1))) none none

theorem yields_tail : tail.Yields .strict bindings (.list [.number four]) := by
  have hpositions : slicePositions 2 (some ⌊((1 : Int) : Rat)⌋) none 1 = [1] := by decide +kernel
  refine .slice (i := some (.ofInt 1 (by decide))) (j := none) (k := none) (.var value_xs) rfl ?_ ?_ ?_ ?_ ?_
  · intro pair hpair e x heq
    subst heq
    simp only [List.zip_cons_cons, List.zip_nil_right, List.mem_cons, Prod.mk.injEq, Option.some.injEq, reduceCtorEq,
      List.not_mem_nil, and_self, or_self, or_false] at hpair
    obtain ⟨rfl, rfl⟩ := hpair
    exact .int 1 (by decide)
  · rintro x (hx | hx | hx)
    · obtain rfl := Option.some.inj hx
      exact ⟨1, rfl⟩
    · cases hx
    · cases hx
  · intro x hx
    cases hx
  · change some (Datum.list ((slicePositions 2 (some ⌊((1 : Int) : Rat)⌋) none 1).filterMap _)) = _
    rw [hpositions]
    rfl
  · intro h
    cases h

/-- The numbers `range(-2 ** 52, 2 ** 52, step)`. -/
def numbers (step : Int) : Expr := .range (.literal (.int (-2 ^ 52))) (.literal (.int (2 ^ 52))) (.literal (.int step))

theorem yields_numbers (joins : Nat → Prop) (step : Int) (hstep : |step| ≤ 2 ^ 53) (hne : step ≠ 0) :
    ∃ items, (numbers step).Yields (.joining joins) bindings (.list items) ∧
      items.length = (steps (-2 ^ 52) (2 ^ 52) step).length := by
  have hstart : |(-2 ^ 52 : Int)| ≤ 2 ^ 53 := by decide
  have hstop : |(2 ^ 52 : Int)| ≤ 2 ^ 53 := by decide
  have hcounts : |(2 ^ 52 - (-2 ^ 52) : Int)| ≤ 2 ^ 53 := by decide
  obtain ⟨items, hitems⟩ := exists_numbers_of_steps hstart hstop hne
  refine ⟨_, .range (.int _ hstart) (.int _ hstop) (.int _ hstep) rfl rfl rfl hcounts hne hitems, ?_⟩
  rw [List.length_map, length_eq_of_steps hitems]

/-- The comparison `xs[-1] < len(xs[1:] + range(-2 ** 52, 2 ** 52, 3))`. -/
def shorter : Expr := .compare last .lt (.length (.arithmetic (.list .int) tail .add (numbers 3)))

theorem yields_shorter : shorter.Yields .strict bindings (.ofTruth true) := by
  obtain ⟨items, hnumbers, hlength⟩ := yields_numbers (fun n => Bound.round n = .fin n) 3 (by decide) (by decide)
  have hsize : (Datum.list ([.number four] ++ items)).size? = some 3002399751580332 := by
    rw [Datum.size?, List.length_append, hlength, length_steps]
    decide +kernel
  have hsmall : |((3002399751580332 : Nat) : Int)| ≤ 2 ^ 53 := by decide
  have hall : Expr.Yields .strict bindings (.arithmetic (.list .int) tail .add (numbers 3))
      (.list ([.number four] ++ items)) := by
    refine .arithmetic yields_tail hnumbers (.list _ _) (fun h => by cases h) fun n hn => ?_
    obtain rfl := Option.some.inj (hsize.symm.trans hn)
    exact_mod_cast Bound.round_intCast hsmall
  refine .compare yields_last (.length (x := .ofInt _ hsmall) hall hsize (Int.cast_natCast _)) ?_
  change true = Comparison.lt.holds ((4 : Int) : Rat) ((3002399751580332 : Nat) : Int)
  decide +kernel

def padded (e : Expr) : Expr := .arithmetic (.list .int) e .add (.list (.list .int) [.literal (.int 0)])

/-- A concatenation is longer by one item, whatever its length. -/
theorem yields_padded {e : Expr} {items : List Datum} (h : e.Yields (.joining fun _ => True) bindings (.list items)) :
    ∃ items', (padded e).Yields (.joining fun _ => True) bindings (.list items') ∧
      items'.length = items.length + 1 := by
  have hzero : Expr.Yields (.joining fun _ => True) bindings (.list (.list .int) [.literal (.int 0)])
      (.list [.number (.ofInt 0 (by decide))]) := by
    refine .list rfl (fun pair hpair => ?_) (fun htype => by cases htype)
    obtain rfl := List.mem_singleton.1 hpair
    exact .int 0 (by decide)
  exact ⟨_, .arithmetic h hzero (.list _ _) (fun htype => by cases htype) fun _ _ => trivial, List.length_append⟩

end Pair

/-- The range of an expression holds its value and the range of its length holds its length, if the environment knows
the variables, every part of the expression has a value, and the length of every concatenation in it is a double. -/
theorem evaluation_sound {joins : Nat → Prop} (hjoins : ∀ n, joins n → Bound.round n = .fin n)
    (henv : env.Knows σ) (h : e.Yields (.joining joins) σ d) :
    (∀ a, evaluate env e = .ok a → d.In a) ∧
      ∀ a n, length env e = .ok a → d.size? = some n → (n : Rat) ∈ a := by
  have hholds := henv.holds (Reading.joining_sound hjoins env) h
  exact ⟨hholds.value, hholds.size⟩

theorem evaluation_sound_shorter : Pair.shorter.Yields .strict Pair.bindings (.ofTruth true) ∧
    evaluate Pair.environment Pair.shorter = .ok .truth ∧ (Datum.ofTruth true).In .truth := by
  have hevaluate : evaluate Pair.environment Pair.shorter = .ok .truth := by decide +kernel
  refine ⟨Pair.yields_shorter, hevaluate, ?_⟩
  exact (evaluation_sound (fun _ h => h) Pair.environment_knows Pair.yields_shorter).1 _ hevaluate

/-- The sum of two lengths is rounded: `range(-2 ** 52, 2 ** 52, 1) + [0]` has `2 ** 53 + 1` items, but its length is
found to be `2 ** 53`. With another `[0]` the length is a double again and still found to be `2 ** 53`. -/
theorem evaluation_loses_padded :
    let sum := Pair.padded (Pair.numbers 1)
    let size := Expr.length (Pair.padded sum)
    Pair.environment.Knows Pair.bindings ∧
      (∃ items, sum.Yields (.joining fun _ => True) Pair.bindings (.list items) ∧ items.length = 2 ^ 53 + 1) ∧
      length Pair.environment sum = .ok (.point (.fin (2 ^ 53))) ∧
      ¬ ((2 ^ 53 + 1 : Nat) : Rat) ∈ Interval.point (.fin (2 ^ 53)) ∧
      (∃ x : Number, size.Yields (.joining fun _ => True) Pair.bindings (.number x) ∧ x.value = 2 ^ 53 + 2) ∧
      evaluate Pair.environment size = .ok (.point (.fin (2 ^ 53))) ∧
      ¬ (2 ^ 53 + 2 : Rat) ∈ Interval.point (.fin (2 ^ 53)) := by
  intro sum size
  obtain ⟨items, hitems, hlength⟩ := Pair.yields_numbers (fun _ => True) 1 (by decide) (by decide)
  rw [length_steps] at hlength
  obtain ⟨once, honce, honceLength⟩ := Pair.yields_padded hitems
  obtain ⟨twice, htwice, htwiceLength⟩ := Pair.yields_padded honce
  have hdouble : Bound.round (2 ^ 53 + 2) = .fin (2 ^ 53 + 2) := by decide +kernel
  have hcount : items.length = 2 ^ 53 := hlength.trans (by decide +kernel)
  refine ⟨Pair.environment_knows, ⟨once, honce, ?_⟩, by decide +kernel, ?_, ⟨⟨2 ^ 53 + 2, hdouble⟩, ?_, rfl⟩,
    by decide +kernel, ?_⟩
  · rw [honceLength, hcount]
  · rw [Interval.mem_point]
    decide +kernel
  · refine .length htwice (n := 2 ^ 53 + 2) ?_ ?_
    · rw [Datum.size?, htwiceLength, honceLength, hcount]
    · norm_num
  · rw [Interval.mem_point]
    decide +kernel

end FlowAnalysis
