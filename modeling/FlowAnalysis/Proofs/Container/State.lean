import FlowAnalysis.Proofs.Container.Evaluation
import FlowAnalysis.Proofs.Interval.Shape

/-!
What interval states know of a memory. A state reflects a memory if it has the identifiers of its variables and holds
their numbers, their lengths and, for lists, sets and dictionaries, all numeric keys and values. An empty container has
no keys and no values, so that its summaries may be anything; emptiness is carried by its length. The environment of
such a state knows the memory as well.
-/

namespace FlowAnalysis

variable {scope : Scope} {m : Memory scope} {x y : Identifier}

/-! ### Identifiers of distinct variables -/

theorem IntervalState.mem_tracked : y ∈ tracked x ↔ y = x ∧ x.type.isNumeric = true ∨
    y = x.lengthOf ∧ x.hasLength = true ∨
    (y = x.keysOf ∨ y = x.valuesOf) ∧ x.hasLength = true ∧ x.type.isContainer = true := by
  simp only [tracked, Identifier.scalars, Identifier.summaries, List.mem_append, or_assoc]
  refine or_congr ?_ (or_congr ?_ ?_) <;> split <;> simp_all

theorem IntervalState.lengthOf_mem_tracked (hlength : x.hasLength = true) : x.lengthOf ∈ tracked x :=
  mem_tracked.2 (Or.inr (Or.inl ⟨rfl, hlength⟩))

theorem IntervalState.keysOf_mem_tracked (hlength : x.hasLength = true) (hcontainer : x.type.isContainer = true) :
    x.keysOf ∈ tracked x :=
  mem_tracked.2 (Or.inr (Or.inr ⟨Or.inl rfl, hlength, hcontainer⟩))

theorem IntervalState.valuesOf_mem_tracked (hlength : x.hasLength = true) (hcontainer : x.type.isContainer = true) :
    x.valuesOf ∈ tracked x :=
  mem_tracked.2 (Or.inr (Or.inr ⟨Or.inr rfl, hlength, hcontainer⟩))

theorem IntervalState.name_of_mem_tracked (h : y ∈ tracked x) : y.name = x.name := by
  rcases mem_tracked.1 h with ⟨rfl, -⟩ | ⟨rfl, -⟩ | ⟨rfl | rfl, -⟩ <;> rfl

namespace Identifier

theorem lengthOf_ne_keysOf (x : Identifier) : x.lengthOf ≠ x.keysOf := by
  simp [lengthOf, keysOf]

theorem lengthOf_ne_valuesOf (x : Identifier) : x.lengthOf ≠ x.valuesOf := by
  simp [lengthOf, valuesOf]

theorem keysOf_ne_valuesOf (x : Identifier) : x.keysOf ≠ x.valuesOf := by
  simp [keysOf, valuesOf]

end Identifier

namespace Scope

theorem hasLength_eq (hx : x ∈ scope.vars) : x.hasLength = (x.type.isSequence || x.type.isContainer) := by
  rw [Identifier.hasLength, Identifier.isPlain, scope.plain x hx]
  rfl

theorem hasLength_of_isContainer (hx : x ∈ scope.vars) (hcontainer : x.type.isContainer = true) :
    x.hasLength = true := by
  rw [hasLength_eq hx, hcontainer, Bool.or_true]

/-- A variable that has a length holds a value that has one. -/
theorem exists_size {d : Datum} (hx : x ∈ scope.vars) (hlength : x.hasLength = true) (hfits : d.Fits x.type) :
    ∃ n, d.size? = some n := by
  rw [hasLength_eq hx] at hlength
  have hkind := hfits.ofKind
  generalize x.type = type at hlength hkind
  cases type with
  | str =>
      obtain ⟨content, rfl⟩ := hkind
      exact ⟨_, rfl⟩
  | list item =>
      obtain ⟨items, rfl⟩ := hkind
      exact ⟨_, rfl⟩
  | set item =>
      obtain ⟨members, rfl⟩ := hkind
      exact ⟨_, rfl⟩
  | dict key value =>
      obtain ⟨entries, rfl⟩ := hkind
      exact ⟨_, rfl⟩
  | tuple items =>
      obtain ⟨items, rfl⟩ := hkind
      exact ⟨_, rfl⟩
  | _ => cases hlength

end Scope

namespace Datum

variable {c key item : Datum}

/-- Nothing is found in an empty container. -/
theorem Item.size_pos (h : c.Item key item) {n : Nat} (hn : c.size? = some n) : 0 < n := by
  cases h with
  | list hi _ =>
      obtain rfl := Option.some.inj hn
      exact Nat.zero_lt_of_lt hi.1
  | tuple hi _ =>
      obtain rfl := Option.some.inj hn
      exact Nat.zero_lt_of_lt hi.1
  | text hi _ =>
      obtain rfl := Option.some.inj hn
      exact Nat.zero_lt_of_lt hi.1
  | dict hmem =>
      obtain rfl := Option.some.inj hn
      exact List.length_pos_of_mem hmem

/-- A number that is found is one of the numeric values. -/
theorem Item.mem_values {v : Number} (h : c.Item key (.number v)) : v.value ∈ c.values := by
  cases h with
  | list _ hv => exact mem_numbers.2 ⟨v, List.mem_of_getElem? hv, rfl⟩
  | tuple _ hv => exact mem_numbers.2 ⟨v, List.mem_of_getElem? hv, rfl⟩
  | dict hmem => exact mem_numbers.2 ⟨v, List.mem_map_of_mem hmem, rfl⟩

end Datum

namespace IntervalState

variable {s t : IntervalState} {range : Interval} {d : Datum}

/-! ### States and memories -/

/-- The ranges of a state for a variable hold a value: its number, its length and, of a list, set or dictionary, all
numeric keys and all numeric values. -/
structure Knows (s : IntervalState) (x : Identifier) (d : Datum) : Prop where
  number : x.type.isNumeric = true → ∀ n, d = .number n → n.value ∈ s.value x
  length : x.hasLength = true → ∀ n, d.size? = some n → (n : Rat) ∈ s.value x.lengthOf
  keys : x.type.isContainer = true → ∀ k ∈ d.keys, k ∈ s.value x.keysOf
  values : x.type.isContainer = true → ∀ v ∈ d.values, v ∈ s.value x.valuesOf

/-- The state has the identifiers of some variables and knows the value of each. -/
structure Reflects (s : IntervalState) (m : Memory scope) : Prop where
  mem_keys : ∀ y, y ∈ s.store.keys ↔ ∃ x ∈ scope.vars, y ∈ tracked x
  knows : ∀ x ∈ scope.vars, s.Knows x (m.value x)

theorem value_set_of_ne (h : y ≠ x) : (s.set x range).value y = s.value y := by
  rw [value, value, get?_set, if_neg h]

theorem value_set_self (h : x ∈ s.store.keys) : (s.set x range).value x = range := by
  obtain ⟨old, hold⟩ := OrderedMap.mem_keys_iff.1 h
  have hold : s.get? x = some old := hold
  rw [value, get?_set, if_pos rfl, hold]
  rfl

/-- Of an identifier that no variable has nothing is known. -/
theorem Reflects.value_of_not_mem (h : s.Reflects m) (hx : x ∈ scope.vars) (hname : y.name = x.name)
    (hy : y ∉ tracked x) : s.value y = y.unknown := by
  have hnone : s.get? y = none := by
    rw [get?, OrderedMap.get?_eq_none_iff]
    intro hmem
    obtain ⟨z, hz, hyz⟩ := (h.mem_keys y).1 hmem
    obtain rfl := scope.distinct z hz x hx ((name_of_mem_tracked hyz).symm.trans hname)
    exact hy hyz
  rw [value, hnone]
  rfl

/-- In a state that is not bottom every identifier has a value. For lengths, which do not make a state bottom, it is
the length in the memory. -/
theorem Reflects.shaped (h : s.Reflects m) (hs : Extremal.isBottom s = false) : Shaped s.store.keys s := by
  refine ⟨rfl, fun _ y range hy => ?_⟩
  obtain ⟨x, hx, hyx⟩ := (h.mem_keys y).1 (OrderedMap.mem_keys_iff.2 ⟨range, hy⟩)
  have hother : y.role ≠ .length → range.isBottom = false := by
    intro hrole
    rw [Bool.eq_false_iff]
    intro hbottom
    exact Bool.eq_false_iff.1 (isBottom_eq_false_iff.1 hs).2 (Store.isBottom_iff.2 ⟨y, range, hy, hrole, hbottom⟩)
  rcases mem_tracked.1 hyx with ⟨rfl, -⟩ | ⟨rfl, hlength⟩ | ⟨rfl | rfl, -⟩
  · refine hother ?_
    rw [scope.plain y hx]
    decide
  · obtain ⟨n, hn⟩ := Scope.exists_size hx hlength (m.fits x hx)
    have hmem := (h.knows x hx).length hlength n hn
    rw [value, show s.get? x.lengthOf = some range from hy] at hmem
    exact Interval.isBottom_eq_false_of_mem hmem
  · exact hother fun hrole => by cases hrole
  · exact hother fun hrole => by cases hrole

theorem Reflects.isBottom_value (h : s.Reflects m) (hs : Extremal.isBottom s = false) (y : Identifier) :
    (s.value y).isBottom = false := by
  unfold value
  cases hy : s.get? y with
  | none => exact isBottom_unknown y
  | some range => exact (h.shaped hs).proper hs y range hy

/-- The state before anything is known. -/
theorem value_ofVariables (vars : List Identifier) (y : Identifier) : (ofVariables vars).value y = y.unknown := by
  unfold value
  cases hy : (ofVariables vars).get? y with
  | none => rfl
  | some range => exact get?_ofVariables hy

theorem ofVariables_reflects (m : Memory scope) : (ofVariables scope.vars).Reflects m where
  mem_keys _ := mem_keys_ofVariables_iff
  knows x hx := by
    constructor
    · intro _ n _
      rw [value_ofVariables, Identifier.unknown, scope.plain x hx]
      exact Interval.mem_top
    · intro _ n _
      rw [value_ofVariables]
      exact Interval.natCast_mem_nonNegative n
    · intro _ k _
      rw [value_ofVariables]
      exact Interval.mem_top
    · intro _ v _
      rw [value_ofVariables]
      exact Interval.mem_top

/-! ### Reading -/

/-- A container that holds something is not known to be empty. -/
theorem Knows.hasNone_eq_false (h : s.Knows x d) (hlength : x.hasLength = true) {n : Nat} (hn : d.size? = some n)
    (hpos : 0 < n) : s.hasNone x = false := by
  rw [hasNone, decide_eq_false_iff_not]
  intro hupper
  have hle := (Interval.mem_iff.1 (h.length hlength n hn)).2
  rw [hupper] at hle
  have hnonpos : (n : Rat) ≤ 0 := Bound.fin_le_fin.1 hle
  exact absurd hpos (by exact_mod_cast not_lt.2 (by exact_mod_cast hnonpos))

/-- The summaries of a sequence that is no container are not kept. -/
theorem Reflects.value_eq_top (h : s.Reflects m) (hx : x ∈ scope.vars) (hcontainer : ¬ x.type.isContainer = true)
    (hy : y = x.keysOf ∨ y = x.valuesOf) : s.value y = .top := by
  have hrole : y.role ≠ .variable ∧ y.role ≠ .length ∧ y.unknown = .top ∧ y.name = x.name := by
    rcases hy with rfl | rfl <;> simp [Identifier.keysOf, Identifier.valuesOf, Identifier.unknown]
  have hkept : y ∉ tracked x := by
    intro hmem
    rcases mem_tracked.1 hmem with ⟨rfl, -⟩ | ⟨rfl, -⟩ | ⟨-, -, hcontainer'⟩
    · exact hrole.1 (scope.plain y hx)
    · exact hrole.2.1 rfl
    · exact hcontainer hcontainer'
  rw [h.value_of_not_mem hx hrole.2.2.2 hkept, hrole.2.2.1]

/-- What a container holds is left room for. -/
theorem Reflects.allowed_values {key item : Datum} (h : s.Reflects m) (hs : Extremal.isBottom s = false)
    (hx : x ∈ scope.vars) (hitem : (m.value x).Item key item) : item.Allowed (s.value x.valuesOf) := by
  cases item with
  | number v =>
      by_cases hcontainer : x.type.isContainer = true
      · exact (h.knows x hx).values hcontainer _ hitem.mem_values
      · rw [h.value_eq_top hx hcontainer (Or.inr rfl)]
        exact Interval.mem_top
  | _ => exact h.isBottom_value hs _

/-- The environment of a state knows the memory that the state reflects. -/
theorem Reflects.environment (h : s.Reflects m) (hs : Extremal.isBottom s = false) :
    s.environment.Reflects m where
  number x hx htype := by
    obtain ⟨n, hn⟩ := (m.fits x hx).suits htype
    rw [hn]
    exact (h.knows x hx).number htype n hn
  length x hx := (h.knows x hx).length
  element x hx hlength key range item hkey hitem := by
    obtain ⟨n, hn⟩ := Scope.exists_size hx hlength (m.fits x hx)
    have hnone := (h.knows x hx).hasNone_eq_false hlength hn (hitem.size_pos hn)
    have hvalues := h.allowed_values hs hx hitem
    change item.Allowed (s.element x range)
    unfold element
    rw [hnone, if_neg Bool.false_ne_true]
    split
    · rename_i keyType valueType htype
      have hmeet : ((s.value x.keysOf).meet range).isBottom = false := by
        cases key with
        | number k =>
            have hmem : k.value ∈ (m.value x).keys := by
              have hkind := (m.fits x hx).ofKind
              rw [htype] at hkind
              obtain ⟨entries, hentries⟩ := hkind
              rw [hentries] at hitem ⊢
              cases hitem with
              | dict hmem => exact Datum.mem_numbers.2 ⟨k, List.mem_map_of_mem hmem, rfl⟩
            have hkeys := (h.knows x hx).keys (by rw [htype]; rfl) _ hmem
            exact Interval.isBottom_eq_false_of_mem (Interval.mem_meet.2 ⟨hkeys, hkey⟩)
        | _ =>
            obtain rfl : range = .top := hkey
            rw [Interval.meet_comm, Interval.meet_eq_right (Interval.le_of_isTop rfl)]
            exact h.isBottom_value hs _
      rw [hmeet, if_neg Bool.false_ne_true]
      exact hvalues
    · exact hvalues

end IntervalState

end FlowAnalysis
