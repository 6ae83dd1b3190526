import FlowAnalysis.Program.Expr
import FlowAnalysis.Proofs.Interval.Steps
import FlowAnalysis.Proofs.Numeric.Translation

/-!
The values of programs with containers: numbers, texts, lists, tuples, sets and dictionaries, where containers may
hold containers. Numbers are finite doubles, as in numeric programs. A memory gives each variable of a scope a value
that respects its type, and no sequence or container in it has `2 ^ 53` items or more.
-/

namespace FlowAnalysis

/-! ### Slices -/

/-- The positions of a slice of `n` items. A bound that is absent is an end of the whole, a negative one counts from
the end, and one outside is moved to the nearest end. -/
def slicePositions (n : Nat) (lower upper : Option Int) (stride : Int) : List Int :=
  let clamp (least greatest i : Int) : Int := max least (min (if i < 0 then i + n else i) greatest)
  if 0 < stride then
    steps ((lower.map (clamp 0 n)).getD 0) ((upper.map (clamp 0 n)).getD n) stride
  else
    steps ((lower.map (clamp (-1) (n - 1))).getD (n - 1)) ((upper.map (clamp (-1) (n - 1))).getD (-1)) stride

/-- The items of a slice. -/
def sliced {α : Type} (items : List α) (lower upper : Option Int) (stride : Int) : List α :=
  (slicePositions items.length lower upper stride).filterMap fun i => if 0 ≤ i then items[i.toNat]? else none

section Slices

variable {α : Type} {items : List α} {lower upper : Option Int} {stride : Int}

theorem mem_of_mem_sliced {x : α} (h : x ∈ sliced items lower upper stride) : x ∈ items := by
  obtain ⟨i, -, hi⟩ := List.mem_filterMap.1 h
  split at hi
  · exact List.mem_of_getElem? hi
  · cases hi

theorem nodup_slicePositions {n : Nat} (hstride : stride ≠ 0) :
    (slicePositions n lower upper stride).Nodup := by
  unfold slicePositions
  dsimp only
  split
  · exact nodup_steps hstride
  · exact nodup_steps hstride

/-- The positions of a slice of `n` items that hold an item. -/
def takenPositions (n : Nat) (lower upper : Option Int) (stride : Int) : List Int :=
  (slicePositions n lower upper stride).filter fun i => 0 ≤ i ∧ i.toNat < n

theorem length_sliced : (sliced items lower upper stride).length =
    (takenPositions items.length lower upper stride).length := by
  rw [sliced, takenPositions, List.length_filterMap_eq_countP, List.countP_eq_length_filter]
  congr 2
  funext i
  by_cases hi : 0 ≤ i
  · rw [if_pos hi, Bool.eq_iff_iff]
    simp [hi]
  · simp [hi]

theorem takenPositions_subset (n : Nat) : takenPositions n lower upper stride ⊆ (List.range n).map Int.ofNat := by
  intro i hi
  obtain ⟨hnonneg, hlt⟩ := of_decide_eq_true (List.mem_filter.1 hi).2
  exact List.mem_map.2 ⟨i.toNat, List.mem_range.2 hlt, Int.toNat_of_nonneg hnonneg⟩

/-- A slice is not longer than the whole: no position is taken twice. -/
theorem length_sliced_le (hstride : stride ≠ 0) :
    (sliced items lower upper stride).length ≤ items.length := by
  have hnodup : (takenPositions items.length lower upper stride).Nodup :=
    (nodup_slicePositions hstride).filter _
  calc (sliced items lower upper stride).length = (takenPositions items.length lower upper stride).length :=
        length_sliced
    _ ≤ ((List.range items.length).map Int.ofNat).length :=
        (hnodup.subperm (takenPositions_subset items.length)).length_le
    _ = items.length := by rw [List.length_map, List.length_range]

end Slices

/-! ### Values -/

/-- A value of a program with containers. The entries of a dictionary are pairs of a key and a value. -/
inductive Datum where
  | number (x : Number)
  | text (content : String)
  | none
  | list (items : List Datum)
  | tuple (items : List Datum)
  | set (members : List Datum)
  | dict (entries : List (Datum × Datum))

namespace Datum

def ofTruth (holds : Bool) : Datum := number (.ofTruth holds)

def size? : Datum → Option Nat
  | text content => some content.length
  | list items => some items.length
  | tuple items => some items.length
  | set members => some members.length
  | dict entries => some entries.length
  | _ => Option.none

/-- Numbers are true unless they are zero, sequences and containers unless they are empty. -/
def truthy : Datum → Bool
  | number x => x.value ≠ 0
  | none => false
  | d => d.size? ≠ some 0

/-- Whether a value is of the kind that a type says; nothing is said about what a container holds. -/
def OfKind (d : Datum) : Ty → Prop
  | .bool => ∃ holds, d = ofTruth holds
  | .int => ∃ x, d = number x ∧ ∃ k : Int, x.value = k
  | .float => ∃ x, d = number x
  | .str => ∃ content, d = text content
  | .none => d = none
  | .list _ => ∃ items, d = list items
  | .set _ => ∃ members, d = set members
  | .dict _ _ => ∃ entries, d = dict entries
  | .tuple _ => ∃ items, d = tuple items
  | .any => True

/-- Whether a value respects a type and is small enough to exist. -/
structure Fits (d : Datum) (type : Ty) : Prop where
  ofKind : d.OfKind type
  small : ∀ n, d.size? = some n → n < 2 ^ 53

def number? : Datum → Option Rat
  | number x => some x.value
  | _ => Option.none

def numbers (items : List Datum) : List Rat := items.filterMap number?

theorem mem_numbers {items : List Datum} {q : Rat} :
    q ∈ numbers items ↔ ∃ x : Number, number x ∈ items ∧ x.value = q := by
  rw [numbers, List.mem_filterMap]
  constructor
  · rintro ⟨d, hd, hq⟩
    cases d with
    | number x => exact ⟨x, hd, Option.some.inj hq⟩
    | _ => cases hq
  · rintro ⟨x, hx, rfl⟩
    exact ⟨_, hx, rfl⟩

def positions (n : Nat) : List Rat := (List.range n).map fun i : Nat => (i : Rat)

/-- The numeric keys: positions of sequences, members of sets, keys of dictionaries. -/
def keys : Datum → List Rat
  | list items => positions items.length
  | tuple items => positions items.length
  | set members => numbers members
  | dict entries => numbers (entries.map Prod.fst)
  | _ => []

/-- The numeric values: items of sequences, members of sets, values of dictionaries. -/
def values : Datum → List Rat
  | list items => numbers items
  | tuple items => numbers items
  | set members => numbers members
  | dict entries => numbers (entries.map Prod.snd)
  | _ => []

/-! ### Items -/

/-- The position that an index means among `n` items; a negative index counts from the end. -/
def Position (n : Nat) (index : Rat) (i : Nat) : Prop := i < n ∧ (index = i ∨ index + n = i)

/-- What is found under a key. -/
inductive Item : Datum → Datum → Datum → Prop where
  | list {items : List Datum} {k : Number} {i : Nat} {x : Datum} (hi : Position items.length k.value i)
      (hx : items[i]? = some x) : Item (list items) (number k) x
  | tuple {items : List Datum} {k : Number} {i : Nat} {x : Datum} (hi : Position items.length k.value i)
      (hx : items[i]? = some x) : Item (tuple items) (number k) x
  | text {content : String} {k : Number} {i : Nat} {c : Char} (hi : Position content.length k.value i)
      (hc : content.toList[i]? = some c) : Item (text content) (number k) (text (String.ofList [c]))
  | dict {entries : List (Datum × Datum)} {key x : Datum} (h : (key, x) ∈ entries) :
      Item (dict entries) key x

/-- A container after an item is written. A key that a dictionary has keeps its place, a new one goes to the end. -/
inductive WithItem : Datum → Datum → Datum → Datum → Prop where
  | list {items : List Datum} {k : Number} {i : Nat} {x : Datum} (hi : Position items.length k.value i) :
      WithItem (list items) (number k) x (list (items.set i x))
  | replaced {front back : List (Datum × Datum)} {key old x : Datum} :
      WithItem (dict (front ++ (key, old) :: back)) key x (dict (front ++ (key, x) :: back))
  | added {entries : List (Datum × Datum)} {key x : Datum} (hnew : ∀ entry ∈ entries, entry.1 ≠ key) :
      WithItem (dict entries) key x (dict (entries ++ [(key, x)]))

/-- A dictionary to which entries are written one after another. -/
inductive Filled : List Datum → List Datum → List (Datum × Datum) → Prop where
  | nil : Filled [] [] []
  | write {keys values : List Datum} {key x : Datum} {entries entries' : List (Datum × Datum)}
      (h : Filled keys values entries) (hwrite : WithItem (dict entries) key x (dict entries')) :
      Filled (keys ++ [key]) (values ++ [x]) entries'

section Writes

variable {entries entries' : List (Datum × Datum)} {keys values : List Datum} {key x : Datum}

/-- What a dictionary holds after a write was written or there before. -/
theorem WithItem.mem (h : WithItem (dict entries) key x (dict entries')) {entry : Datum × Datum}
    (hentry : entry ∈ entries') : entry = (key, x) ∨ entry ∈ entries := by
  cases h with
  | replaced =>
      simp only [List.mem_append, List.mem_cons] at hentry ⊢
      tauto
  | added _ =>
      simp only [List.mem_append, List.mem_singleton] at hentry
      tauto

/-- A dictionary grows by at most one entry and is not empty after a write. -/
theorem WithItem.length (h : WithItem (dict entries) key x (dict entries')) :
    0 < entries'.length ∧ (entries'.length = entries.length ∨ entries'.length = entries.length + 1) := by
  cases h with
  | replaced => simp
  | added _ => simp

theorem Filled.mem (h : Filled keys values entries) {entry : Datum × Datum} (hentry : entry ∈ entries) :
    entry.1 ∈ keys ∧ entry.2 ∈ values := by
  induction h with
  | nil => cases hentry
  | write _ hwrite ih =>
      rcases hwrite.mem hentry with rfl | hentry
      · simp
      · exact ⟨List.mem_append_left _ (ih hentry).1, List.mem_append_left _ (ih hentry).2⟩

/-- Writing under some keys gives at most as many entries, and at least one if there is a key. -/
theorem Filled.length (h : Filled keys values entries) :
    entries.length ≤ keys.length ∧ (0 < keys.length → 0 < entries.length) := by
  induction h with
  | nil => simp
  | write _ hwrite ih =>
      obtain ⟨hpos, hgrows⟩ := hwrite.length
      rw [List.length_append, List.length_singleton]
      omega

end Writes

def slice? (lower upper : Option Int) (stride : Int) : Datum → Option Datum
  | text content => some (text (String.ofList (sliced content.toList lower upper stride)))
  | list items => some (list (sliced items lower upper stride))
  | tuple items => some (tuple (sliced items lower upper stride))
  | _ => Option.none

end Datum

/-- The result of an operation: the double nearest to the exact result, or the concatenation of two sequences. -/
inductive Arithmetic.Combines : Arithmetic → Datum → Datum → Datum → Prop where
  | number {op : Arithmetic} {x y z : Number} {exact : Rat} (hexact : op.unrounded? x.value y.value = some exact)
      (hround : Bound.round exact = .fin z.value) : Combines op (.number x) (.number y) (.number z)
  | text (a b : String) : Combines .add (.text a) (.text b) (.text (a ++ b))
  | list (xs ys : List Datum) : Combines .add (.list xs) (.list ys) (.list (xs ++ ys))
  | tuple (xs ys : List Datum) : Combines .add (.tuple xs) (.tuple ys) (.tuple (xs ++ ys))

/-- The answer of a comparison; nothing is said about values other than numbers. -/
def Comparison.Decides (op : Comparison) : Datum → Datum → Bool → Prop
  | .number x, .number y, holds => holds = op.holds x.value y.value
  | _, _, _ => True

/-- The truth value of the left side that decides a connective. -/
def Connective.decidedBy : Connective → Bool
  | and => false
  | or => true

/-! ### Memory -/

/-- Variables with distinct names. -/
structure Scope where
  vars : List Identifier
  plain : ∀ x ∈ vars, x.role = .variable
  distinct : ∀ x ∈ vars, ∀ y ∈ vars, x.name = y.name → x = y

/-- A value for each variable that respects its type. -/
structure Memory (scope : Scope) where
  value : Identifier → Datum
  fits : ∀ x ∈ scope.vars, (value x).Fits x.type

variable {scope : Scope}

def Memory.set (m : Memory scope) (x : Identifier) (d : Datum) (h : d.Fits x.type) : Memory scope where
  value y := if y = x then d else m.value y
  fits y hy := by
    by_cases heq : y = x
    · subst heq
      rwa [if_pos rfl]
    · rw [if_neg heq]
      exact m.fits y hy

theorem Memory.value_set (m : Memory scope) {x : Identifier} {d : Datum} (h : d.Fits x.type) (y : Identifier) :
    (m.set x d h).value y = if y = x then d else m.value y := rfl

/-! ### Ranges and literals -/

/-- A range has as many items as steps. -/
theorem length_eq_of_steps {items : List Number} {a b c : Int}
    (hitems : items.map Number.value = (steps a b c).map Int.cast) : items.length = (steps a b c).length := by
  rw [← List.length_map (f := Number.value), hitems, List.length_map]

theorem Literal.ofKind {value : Literal} {x : Number}
    (hvalue : value.number?.bind Double.bound? = some (.fin x.value)) : (Datum.number x).OfKind value.type := by
  have hfits := Literal.fits hvalue
  cases value with
  | bool value =>
      obtain ⟨holds, hholds⟩ := hfits
      exact ⟨holds, congrArg Datum.number (Value.number.inj hholds)⟩
  | int value =>
      obtain ⟨y, hy, hwhole⟩ := hfits
      exact ⟨x, rfl, Value.number.inj hy ▸ hwhole⟩
  | float value => exact ⟨x, rfl⟩
  | str value => cases hvalue
  | none => cases hvalue

end FlowAnalysis
