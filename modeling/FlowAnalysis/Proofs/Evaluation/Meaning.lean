import FlowAnalysis.Proofs.Container.Semantics

/-!
The meaning of expressions. All numbers are finite doubles, lengths included. What else is asked of the values depends
on the reading: how closely they respect the types, what a view of a container is, over which distances ranges are
counted, how long concatenations are, and whether a connective that its left side decides may go without its right
side. In the readings of this module only the numeric types are relied on: a variable of such a type has a number,
whichever it is, and so has every expression of such a type; of a container nothing is asked.
-/

namespace FlowAnalysis

/-- A whole number that is a double. -/
def Number.ofInt (k : Int) (hk : |k| ≤ 2 ^ 53) : Number := ⟨k, Bound.round_intCast hk⟩

/-- The numbers that a range leads through are doubles if its ends are small. -/
theorem exists_numbers_of_steps {a b c : Int} (ha : |a| ≤ 2 ^ 53) (hb : |b| ≤ 2 ^ 53) (hc : c ≠ 0) :
    ∃ items : List Number, items.map Number.value = (steps a b c).map Int.cast := by
  have hsmall : ∀ k ∈ steps a b c, |k| ≤ 2 ^ 53 := fun k hk =>
    (abs_le_of_mem_steps hc hk).trans (max_le ha hb)
  refine ⟨(steps a b c).pmap Number.ofInt hsmall, ?_⟩
  rw [List.map_pmap]
  exact List.pmap_eq_map hsmall

/-- Whether a value respects a numeric type at least by being a number. -/
def Datum.Suits (d : Datum) (type : Ty) : Prop := type.isNumeric = true → ∃ x, d = .number x

theorem Datum.suits_number (x : Number) (type : Ty) : (Datum.number x).Suits type := fun _ => ⟨x, rfl⟩

theorem Datum.OfKind.suits {d : Datum} {type : Ty} (h : d.OfKind type) : d.Suits type := by
  intro htype
  cases type with
  | bool =>
      obtain ⟨holds, rfl⟩ := h
      exact ⟨_, rfl⟩
  | int =>
      obtain ⟨x, rfl, -⟩ := h
      exact ⟨x, rfl⟩
  | float => exact h
  | _ => cases htype

/-- The values of some variables, of which no two have the same name. -/
structure Bindings where
  value? : Identifier → Option Datum
  suits : ∀ x d, value? x = some d → d.Suits x.type
  distinct : ∀ x y, (value? x).isSome = true → (value? y).isSome = true → x.name = y.name → x = y

def Bindings.single (x : Identifier) (d : Datum) (h : d.Suits x.type) : Bindings where
  value? y := if y = x then some d else none
  suits y c hy := by
    obtain ⟨rfl, hc⟩ := Option.ite_none_right_eq_some.1 hy
    exact Option.some.inj hc ▸ h
  distinct y z hy hz _ := by
    have heq : ∀ y, (if y = x then some d else none).isSome = true → y = x := by
      intro y hy
      by_contra hne
      rw [if_neg hne] at hy
      cases hy
    exact (heq y hy).trans (heq z hz).symm

theorem Bindings.single_eq_some {x y : Identifier} {c d : Datum} {h : d.Suits x.type} :
    (Bindings.single x d h).value? y = some c ↔ y = x ∧ d = c := by
  rw [Bindings.single, Option.ite_none_right_eq_some, Option.some_inj]

/-- How expressions are read. -/
structure Reading where
  /-- The values that respect a type. -/
  conforms : Datum → Ty → Prop
  /-- What a view of a value may be. -/
  views : View → Datum → Datum → Prop
  /-- The ranges that are counted, by start, stop and step. -/
  counts : Int → Int → Int → Prop
  /-- The lengths that concatenations have. -/
  joins : Nat → Prop
  /-- The operands that a connective has no need of if its left side decides. -/
  skips : Expr → Prop

/-- Concatenations have certain lengths. Nothing is skipped, of a view only the number of its members is said, and
ranges are counted over a distance of at most `2 ^ 53`, as there is between any two whole numbers of a magnitude of at
most `2 ^ 52`. -/
def Reading.joining (joins : Nat → Prop) : Reading where
  conforms := Datum.Suits
  views _ c d := d.size? = c.size?
  counts a b _ := |b - a| ≤ 2 ^ 53
  joins := joins
  skips _ := False

/-- The length of a concatenation is a double, as it is up to `2 ^ 53`. -/
def Reading.strict : Reading := .joining fun n => Bound.round n = .fin n

variable {reading : Reading} {σ : Bindings}

/-- The values that an expression may have. Input and fields may have any that respects the type. -/
inductive Expr.Yields (reading : Reading) (σ : Bindings) : Expr → Datum → Prop where
  | literal {value : Literal} {x : Number} (hvalue : value.number?.bind Double.bound? = some (.fin x.value)) :
      Yields reading σ (.literal value) (.number x)
  | text {content : String} (hconforms : reading.conforms (.text content) .str) :
      Yields reading σ (.literal (.str content)) (.text content)
  | none : Yields reading σ (.literal .none) .none
  | var {x : Identifier} {d : Datum} (hx : σ.value? x = some d) : Yields reading σ (.var x) d
  | input {type : Ty} {d : Datum} (hkind : d.OfKind type) (hconforms : reading.conforms d type) :
      Yields reading σ (.input type) d
  | list {type : Ty} {items : List Expr} {values : List Datum} (hlength : items.length = values.length)
      (hitems : ∀ pair ∈ items.zip values, Yields reading σ pair.1 pair.2)
      (hconforms : reading.conforms (.list values) type) : Yields reading σ (.list type items) (.list values)
  | set {type : Ty} {items : List Expr} {values members : List Datum} (hlength : items.length = values.length)
      (hitems : ∀ pair ∈ items.zip values, Yields reading σ pair.1 pair.2) (hnodup : members.Nodup)
      (hmembers : ∀ x, x ∈ members ↔ x ∈ values) (hconforms : reading.conforms (.set members) type) :
      Yields reading σ (.set type items) (.set members)
  | dict {type : Ty} {keys values : List Expr} {keyed valued : List Datum} {entries : List (Datum × Datum)}
      (hkeysLength : keys.length = keyed.length) (hkeys : ∀ pair ∈ keys.zip keyed, Yields reading σ pair.1 pair.2)
      (hvaluesLength : values.length = valued.length)
      (hvalues : ∀ pair ∈ values.zip valued, Yields reading σ pair.1 pair.2)
      (hentries : Datum.Filled keyed valued entries) (hconforms : reading.conforms (.dict entries) type) :
      Yields reading σ (.dict type keys values) (.dict entries)
  | range {start stop step : Expr} {x y z : Number} {a b c : Int} {items : List Number}
      (hstart : Yields reading σ start (.number x)) (hstop : Yields reading σ stop (.number y))
      (hstep : Yields reading σ step (.number z)) (hx : x.value = a) (hy : y.value = b) (hz : z.value = c)
      (hcounts : reading.counts a b c) (hne : c ≠ 0)
      (hitems : items.map Number.value = (steps a b c).map Int.cast) :
      Yields reading σ (.range start stop step) (.list (items.map .number))
  | length {target : Expr} {d : Datum} {n : Nat} {x : Number} (htarget : Yields reading σ target d)
      (hsize : d.size? = some n) (hx : x.value = n) : Yields reading σ (.length target) (.number x)
  | keys {target : Expr} {c d : Datum} (htarget : Yields reading σ target c) (hview : reading.views .keys c d) :
      Yields reading σ (.keys target) d
  | values {target : Expr} {c d : Datum} (htarget : Yields reading σ target c) (hview : reading.views .values c d) :
      Yields reading σ (.values target) d
  | field {type : Ty} {target : Expr} {name : String} {d : Datum} (hconforms : reading.conforms d type) :
      Yields reading σ (.field type target name) d
  | item {type : Ty} {target key : Expr} {c k d : Datum} (htarget : Yields reading σ target c)
      (hkey : Yields reading σ key k) (hitem : c.Item k d) (hconforms : reading.conforms d type) :
      Yields reading σ (.item type target key) d
  | slice {type : Ty} {target : Expr} {lower upper stride : Option Expr} {i j k : Option Number} {c d : Datum}
      (htarget : Yields reading σ target c)
      (hpresent : [lower, upper, stride].map Option.isSome = [i, j, k].map Option.isSome)
      (hbounds : ∀ pair ∈ [lower, upper, stride].zip [i, j, k], ∀ e x, pair = (some e, some x) →
        Yields reading σ e (.number x))
      (hwhole : ∀ x, x ∈ i ∨ x ∈ j ∨ x ∈ k → ∃ n : Int, x.value = n) (hstride : ∀ x ∈ k, x.value ≠ 0)
      (hslice : c.slice? (i.map (⌊·.value⌋)) (j.map (⌊·.value⌋)) ((k.map (⌊·.value⌋)).getD 1) = some d)
      (hconforms : reading.conforms d type) : Yields reading σ (.slice type target lower upper stride) d
  | signed {type : Ty} {sign : Sign} {operand : Expr} {x : Number} (hoperand : Yields reading σ operand (.number x))
      (hconforms : reading.conforms (.number (sign.apply x)) type) :
      Yields reading σ (.signed type sign operand) (.number (sign.apply x))
  | not {operand : Expr} {d : Datum} (hoperand : Yields reading σ operand d) :
      Yields reading σ (.not operand) (.ofTruth !d.truthy)
  | arithmetic {type : Ty} {left right : Expr} {op : Arithmetic} {c d r : Datum} (hleft : Yields reading σ left c)
      (hright : Yields reading σ right d) (hresult : op.Combines c d r) (hconforms : reading.conforms r type)
      (hjoins : ∀ n, r.size? = some n → reading.joins n) : Yields reading σ (.arithmetic type left op right) r
  | connective {left right : Expr} {op : Connective} {c d : Datum} (hleft : Yields reading σ left c)
      (hright : Yields reading σ right d) :
      Yields reading σ (.connective left op right) (.ofTruth (op.holds c.truthy d.truthy))
  | decided {left right : Expr} {op : Connective} {d : Datum} (hskips : reading.skips right)
      (hleft : Yields reading σ left d) (hdecides : d.truthy = op.decidedBy) :
      Yields reading σ (.connective left op right) (.ofTruth op.decidedBy)
  | compare {left right : Expr} {op : Comparison} {c d : Datum} {holds : Bool} (hleft : Yields reading σ left c)
      (hright : Yields reading σ right d) (hresult : op.Decides c d holds) :
      Yields reading σ (.compare left op right) (.ofTruth holds)

namespace Expr.Yields

variable {e : Expr} {d : Datum}

/-- An expression of a numeric type has a number, in a reading where values that respect such a type are numbers. -/
theorem suits (hreading : ∀ d type, reading.conforms d type → d.Suits type) (h : e.Yields reading σ d) :
    d.Suits e.type := by
  cases h with
  | literal _ => exact Datum.suits_number _ _
  | var hx => exact σ.suits _ _ hx
  | input hkind _ => exact hkind.suits
  | list _ _ hconforms => exact hreading _ _ hconforms
  | set _ _ _ _ hconforms => exact hreading _ _ hconforms
  | dict _ _ _ _ _ hconforms => exact hreading _ _ hconforms
  | length _ _ _ => exact Datum.suits_number _ _
  | field hconforms => exact hreading _ _ hconforms
  | item _ _ _ hconforms => exact hreading _ _ hconforms
  | slice _ _ _ _ _ _ hconforms => exact hreading _ _ hconforms
  | signed _ _ => exact Datum.suits_number _ _
  | not _ => exact Datum.suits_number _ _
  | arithmetic _ _ _ hconforms _ => exact hreading _ _ hconforms
  | connective _ _ => exact Datum.suits_number _ _
  | decided _ _ _ => exact Datum.suits_number _ _
  | compare _ _ _ => exact Datum.suits_number _ _
  | _ => exact fun htype => by cases htype

/-- A whole number that is written out. -/
theorem int (k : Int) (hk : |k| ≤ 2 ^ 53) : (Expr.literal (.int k)).Yields reading σ (.number (.ofInt k hk)) :=
  .literal (congrArg some (Bound.round_intCast hk))

end Expr.Yields

end FlowAnalysis
