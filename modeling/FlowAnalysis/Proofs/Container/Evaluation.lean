import FlowAnalysis.Proofs.Evaluation.Soundness

/-!
The meaning of programs with containers, and the soundness of evaluation for them. A memory binds the variables of its
scope. A value that is assigned is copied, and no sequence or container has `2 ^ 53` items or more. Connectives come in
two readings: one asks for a value of both sides, the other goes without the right side if the left one decides.
Evaluation is sound for the first.
-/

namespace FlowAnalysis

variable {scope : Scope} {early : Bool} {m : Memory scope} {env : Environment} {e : Expr} {d : Datum}

/-- Only numbers respect the types of numbers. -/
theorem Datum.Fits.suits {type : Ty} (h : d.Fits type) : d.Suits type := h.ofKind.suits

def Memory.bindings (m : Memory scope) : Bindings where
  value? x := if x ∈ scope.vars then some (m.value x) else none
  suits x d h := by
    obtain ⟨hx, hvalue⟩ := Option.ite_none_right_eq_some.1 h
    exact Option.some.inj hvalue ▸ (m.fits x hx).suits
  distinct x y hx hy := by
    have hmem : ∀ z, (if z ∈ scope.vars then some (m.value z) else none).isSome = true → z ∈ scope.vars := by
      intro z hz
      by_contra hnot
      rw [if_neg hnot] at hz
      cases hz
    exact scope.distinct x (hmem x hx) y (hmem y hy)

theorem Memory.bindings_eq_some {x : Identifier} :
    m.bindings.value? x = some d ↔ x ∈ scope.vars ∧ m.value x = d := by
  rw [Memory.bindings, Option.ite_none_right_eq_some, Option.some_inj]

/-! ### Meaning -/

/-- The members of a dictionary that a view shows. -/
inductive Datum.Views : View → Datum → Datum → Prop where
  | keys {entries : List (Datum × Datum)} : Views .keys (dict entries) (set (entries.map Prod.fst))
  | values {entries : List (Datum × Datum)} : Views .values (dict entries) (list (entries.map Prod.snd))

theorem Datum.Views.size {view : View} {c : Datum} (h : Views view c d) : d.size? = c.size? := by
  cases h with
  | keys => exact congrArg some (List.length_map _)
  | values => exact congrArg some (List.length_map _)

/-- All values respect their types and have fewer than `2 ^ 53` items. If `early`, a connective that its left side
decides has no need of its right side. -/
def Reading.typed (early : Bool) : Reading where
  conforms := Datum.Fits
  views := Datum.Views
  counts a b c := |a| < 2 ^ 52 ∧ |b| < 2 ^ 52 ∧ |c| < 2 ^ 52
  joins _ := True
  skips _ := early = true

/-- The values that an expression may have in a memory. -/
def Expr.Denotes (early : Bool) (m : Memory scope) (e : Expr) (d : Datum) : Prop := e.Yields (.typed early) m.bindings d

/-- The value of an expression respects the type of the expression. -/
theorem Expr.Denotes.fits (h : e.Denotes early m d) : d.Fits e.type := by
  have hnumber : ∀ {x : Number} {type : Ty}, (Datum.number x).OfKind type → (Datum.number x).Fits type :=
    fun h => ⟨h, fun n hn => by cases hn⟩
  have htruth : ∀ holds, (Datum.ofTruth holds).Fits .bool := fun holds => hnumber ⟨holds, rfl⟩
  have hviews : ∀ {view : View} {c d : Datum} {type type' : Ty}, c.Fits type → Datum.Views view c d →
      d.OfKind type' → d.Fits type' := fun hc hview hkind => ⟨hkind, fun n hn => hc.small n (hview.size ▸ hn)⟩
  induction h with
  | literal hvalue => exact hnumber (Literal.ofKind hvalue)
  | text hfits => exact hfits
  | none => exact ⟨rfl, fun n hn => by cases hn⟩
  | var hx =>
      obtain ⟨hmem, rfl⟩ := Memory.bindings_eq_some.1 hx
      exact m.fits _ hmem
  | input _ hfits => exact hfits
  | list _ _ hfits => exact hfits
  | set _ _ _ _ hfits => exact hfits
  | dict _ _ _ _ _ hfits => exact hfits
  | @range _ _ _ _ _ _ a b c items _ _ _ _ _ _ hcounts hne hitems =>
      refine ⟨⟨_, rfl⟩, fun n hn => ?_⟩
      obtain ⟨ha, hb, -⟩ := hcounts
      have hlength := length_eq_of_steps hitems
      have hle := length_steps_le a b hne
      rw [abs_lt] at ha hb
      have hdistance : |b - a| < 2 ^ 53 := abs_lt.2 ⟨by omega, by omega⟩
      obtain rfl := Option.some.inj hn
      rw [List.length_map, hlength]
      omega
  | length _ _ hx => exact hnumber ⟨_, rfl, _, hx⟩
  | keys _ hview ih =>
      refine hviews ih hview ?_
      cases hview with
      | keys => exact ⟨_, rfl⟩
  | values _ hview ih =>
      refine hviews ih hview ?_
      cases hview with
      | values => exact ⟨_, rfl⟩
  | field hfits => exact hfits
  | item _ _ _ hfits => exact hfits
  | slice _ _ _ _ _ _ hfits => exact hfits
  | signed _ hfits => exact hfits
  | not _ => exact htruth _
  | arithmetic _ _ _ hfits _ => exact hfits
  | connective _ _ => exact htruth _
  | decided _ _ _ => exact htruth _
  | compare _ _ _ => exact htruth _

/-- What an assignment does to a memory. A value that is assigned respects the type of the variable, as it does if the
expression has that type. -/
inductive Memory.Assigns (early : Bool) (m : Memory scope) : Expr → Expr → Memory scope → Prop where
  | var {x : Identifier} {right : Expr} {d : Datum} (hx : x ∈ scope.vars)
      (hright : right.Denotes early m d) (hfits : d.Fits x.type) :
      Assigns early m (.var x) right (m.set x d hfits)
  | item {type : Ty} {container : Identifier} {key right : Expr} {k x d : Datum}
      (hcontainer : container ∈ scope.vars) (hkey : key.Denotes early m k)
      (hright : right.Denotes early m x) (hwrite : (m.value container).WithItem k x d)
      (hfits : d.Fits container.type) :
      Assigns early m (.item type (.var container) key) right (m.set container d hfits)

/-! ### Ranges -/

/-- A value of fewer than `2 ^ 53` items has a length that is a double. -/
theorem Datum.Fits.double {type : Ty} {n : Nat} (h : d.Fits type) (hn : d.size? = some n) :
    Bound.round n = .fin n := by
  have hsmall := h.small n hn
  exact_mod_cast Bound.round_intCast (k := n) (by rw [Nat.abs_cast]; omega)

theorem Reading.typed_sound (env : Environment) : (typed false).Sound env where
  conforms _ _ h := h.suits
  views _ _ _ h := h.size
  counts a b _ h := by
    obtain ⟨ha, hb, -⟩ := h
    rw [abs_lt] at ha hb
    exact abs_le.2 ⟨by omega, by omega⟩
  joins _ _ _ h hn _ := h.double hn
  skips _ h := by cases h

/-- An environment that knows the variables of a memory: their numbers, their lengths, and what is found under a key. -/
structure Environment.Reflects (env : Environment) (m : Memory scope) : Prop where
  number : ∀ x ∈ scope.vars, x.type.isNumeric = true → (m.value x).In (env.value x)
  length : ∀ x ∈ scope.vars, x.hasLength = true → ∀ n, (m.value x).size? = some n →
    (n : Rat) ∈ env.value x.lengthOf
  element : ∀ x ∈ scope.vars, x.hasLength = true → ∀ key range item, key.In range →
    (m.value x).Item key item → item.Allowed (env.element x range)

theorem Environment.Reflects.knows (henv : env.Reflects m) : env.Knows m.bindings where
  number x n h htype := by
    obtain ⟨hx, hvalue⟩ := Memory.bindings_eq_some.1 h
    have hin := henv.number x hx htype
    rw [hvalue] at hin
    exact hin
  length x c n h hlength hn := by
    obtain ⟨hx, rfl⟩ := Memory.bindings_eq_some.1 h
    exact henv.length x hx hlength n hn
  element x c key item range h hlength hitem hkey := by
    obtain ⟨hx, rfl⟩ := Memory.bindings_eq_some.1 h
    exact henv.element x hx hlength key range item hkey hitem

/-- What is known of an expression holds its value if every part of it has one. -/
theorem Environment.Reflects.holds (henv : env.Reflects m) (h : e.Denotes false m d) : env.Holds e d :=
  henv.knows.holds (Reading.typed_sound env) h

/-- The joined range of several expressions holds every number that one of them has. -/
theorem mem_evaluateJoined {items : List Expr} {values : List Datum} {joined : Interval} {q : Rat}
    (henv : env.Reflects m) (hlength : items.length = values.length)
    (hitems : ∀ pair ∈ items.zip values, pair.1.Denotes false m pair.2)
    (h : evaluateJoined env items = .ok joined) (hq : q ∈ Datum.numbers values) : q ∈ joined := by
  obtain ⟨x, hx, rfl⟩ := Datum.mem_numbers.1 hq
  exact allowed_evaluateJoined hlength (fun pair hpair => henv.holds (hitems pair hpair)) h hx

end FlowAnalysis
