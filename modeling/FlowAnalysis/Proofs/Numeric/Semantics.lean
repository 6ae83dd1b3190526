import FlowAnalysis.Proofs.Graph
import FlowAnalysis.Proofs.Interval.Arithmetic

/-!
The meaning of numeric programs. A numeric program computes with finite doubles: variables hold numbers
of their types, arithmetic is exact arithmetic followed by rounding, comparisons and connectives give
zero or one, and texts come only from input and conversions. Every value respects the type that is
declared for it, and an execution in which one does not, or in which a result is not finite, is not
followed. An execution starts at the entry of a graph with any values of the variables, runs through
statements, and leaves a node over an edge whose guard is true.
-/

namespace FlowAnalysis

/-! ### Values -/

/-- A finite double. -/
structure Number where
  value : Rat
  isDouble : Bound.round value = .fin value

namespace Number

def ofTruth (holds : Bool) : Number :=
  ⟨truthNumber holds, by
    cases holds with
    | false => exact Bound.round_zero
    | true => exact Bound.round_intCast (k := 1) (by decide)⟩

def neg (x : Number) : Number :=
  ⟨-x.value, by rw [Bound.round_neg, x.isDouble]; rfl⟩

end Number

def Sign.apply : Sign → Number → Number
  | plus, x => x
  | minus, x => x.neg

/-- A value of a numeric program. -/
inductive Value where
  | number (x : Number)
  | text (content : String)

namespace Value

def ofTruth (holds : Bool) : Value := number (.ofTruth holds)

/-- Numbers are true unless they are zero, texts unless they are empty. -/
def truthy : Value → Bool
  | number x => x.value ≠ 0
  | text content => content ≠ ""

theorem truthy_ofTruth (holds : Bool) : (ofTruth holds).truthy = holds := by
  cases holds <;> simp [truthy, ofTruth, Number.ofTruth, truthNumber]

/-- Whether a value respects a type. Types other than numbers and strings say nothing. -/
def Fits (v : Value) : Ty → Prop
  | .bool => ∃ holds, v = ofTruth holds
  | .int => ∃ x, v = number x ∧ ∃ k : Int, x.value = k
  | .float => ∃ x, v = number x
  | .str => ∃ content, v = text content
  | _ => True

/-- The conversion of a value to a type: floats keep a number, integers drop what is behind the
point, and a text may be read as any number and a number be written as any text. -/
def ConvertsTo (v : Value) (target : Ty) (r : Value) : Prop :=
  r.Fits target ∧
    match target, v with
    | .bool, v => r = ofTruth v.truthy
    | .int, number x =>
      ∃ y : Number, r = number y ∧ y.value = if 0 ≤ x.value then ⌊x.value⌋ else ⌈x.value⌉
    | .float, number x => r = number x
    | .str, text content => r = text content
    | _, _ => True

end Value

/-- The exact result of an operation on two numbers. -/
def Arithmetic.unrounded? : Arithmetic → Rat → Rat → Option Rat
  | add, x, y => some (x + y)
  | sub, x, y => some (x - y)
  | mul, x, y => some (x * y)
  | div, x, y => if y = 0 then none else some (x / y)

/-- The result of an operation: the double nearest to the exact one, or some text if an operand is
a text. -/
def Arithmetic.Gives (op : Arithmetic) : Value → Value → Value → Prop
  | .number x, .number y, .number z =>
    ∃ exact, op.unrounded? x.value y.value = some exact ∧ Bound.round exact = .fin z.value
  | .number _, .number _, .text _ => False
  | _, _, .number _ => False
  | _, _, .text _ => True

/-- The answer of a comparison; nothing is said about texts. -/
def Comparison.Gives (op : Comparison) : Value → Value → Bool → Prop
  | .number x, .number y, holds => holds = op.holds x.value y.value
  | _, _, _ => True

/-- Whether a connective holds between any number of conditions. -/
def Connective.holdsAll : Connective → List Bool → Bool
  | and, conditions => conditions.all id
  | or, conditions => conditions.any id

/-! ### Names of operations -/

def Sign.callName : Sign → String
  | plus => "uadd"
  | minus => "usub"

def Arithmetic.callName : Arithmetic → String
  | add => "add"
  | sub => "sub"
  | mul => "mult"
  | div => "div"

def Comparison.callName? : Comparison → Option String
  | eq => some "eq"
  | ne => some "noteq"
  | lt => some "lt"
  | le => some "lte"
  | gt => some "gt"
  | ge => some "gte"
  | _ => none

def Connective.callName : Connective → String
  | and => "and"
  | or => "or"

def Ty.callName? : Ty → Option String
  | bool => some "bool"
  | int => some "int"
  | float => some "float"
  | str => some "str"
  | _ => Option.none

/-! ### Statements -/

/-- A variable of the program that holds a number. -/
def Identifier.IsScalar (x : Identifier) : Prop := x.role = .variable ∧ x.type.isNumeric = true

/-- Numbers for the variables, each of the type of its variable. -/
structure Valuation where
  value : Identifier → Number
  fits : ∀ x, x.IsScalar → (Value.number (value x)).Fits x.type

/-- The valuation with another number for `x`. -/
def Valuation.set (σ : Valuation) (x : Identifier) (n : Number)
    (h : (Value.number n).Fits x.type) : Valuation where
  value y := if y = x then n else σ.value y
  fits y hy := by
    by_cases heq : y = x
    · subst heq
      rwa [if_pos rfl]
    · rw [if_neg heq]
      exact σ.fits y hy

/-- The values that a statement may have where a value is needed. -/
inductive Stmt.Evaluates (σ : Valuation) : Stmt → Value → Prop where
  | literal {point : Point} {value : Literal} {x : Number}
      (hvalue : value.number?.bind Double.bound? = some (.fin x.value)) :
      Evaluates σ (.literal point value) (.number x)
  | var {point : Point} {x : Identifier} (hscalar : x.IsScalar) :
      Evaluates σ (.var point x) (.number (σ.value x))
  | input {point : Point} {type : Ty} {arguments : List Stmt} {v : Value}
      (harguments : arguments.length ≤ 1) (hfits : v.Fits type) :
      Evaluates σ (.call point "input" type arguments) v
  | signed {point : Point} {sign : Sign} {type : Ty} {operand : Stmt} {x : Number}
      (hoperand : Evaluates σ operand (.number x))
      (hfits : (Value.number (sign.apply x)).Fits type) :
      Evaluates σ (.call point sign.callName type [operand]) (.number (sign.apply x))
  | not {point : Point} {type : Ty} {operand : Stmt} {v : Value}
      (hoperand : Evaluates σ operand v) :
      Evaluates σ (.call point "not" type [operand]) (.ofTruth !v.truthy)
  | arithmetic {point : Point} {op : Arithmetic} {type : Ty} {left right : Stmt} {v w r : Value}
      (hleft : Evaluates σ left v) (hright : Evaluates σ right w) (hresult : op.Gives v w r)
      (hfits : r.Fits type) :
      Evaluates σ (.call point op.callName type [left, right]) r
  | compare {point : Point} {op : Comparison} {name : String} {type : Ty} {left right : Stmt}
      {v w : Value} {holds : Bool} (hname : op.callName? = some name)
      (hleft : Evaluates σ left v) (hright : Evaluates σ right w)
      (hresult : op.Gives v w holds) :
      Evaluates σ (.call point name type [left, right]) (.ofTruth holds)
  | connective {point : Point} {op : Connective} {type : Ty} {arguments : List Stmt}
      {values : List Value} (htwo : 2 ≤ arguments.length)
      (hlength : arguments.length = values.length)
      (heach : ∀ pair ∈ arguments.zip values, Evaluates σ pair.1 pair.2) :
      Evaluates σ (.call point op.callName type arguments)
        (.ofTruth (op.holdsAll (values.map Value.truthy)))
  | cast {point : Point} {target : Ty} {name : String} {type : Ty} {operand : Stmt} {v r : Value}
      (hname : target.callName? = some name) (hoperand : Evaluates σ operand v)
      (hresult : v.ConvertsTo target r) :
      Evaluates σ (.call point name type [operand]) r

/-- What a statement does to a valuation. No execution goes on where an error is raised. -/
inductive Stmt.Executes (σ : Valuation) : Stmt → Valuation → Prop where
  | assign {point place : Point} {x : Identifier} {right : Stmt} {n : Number} (hscalar : x.IsScalar)
      (hright : right.Evaluates σ (.number n)) (hfits : (Value.number n).Fits x.type) :
      Executes σ (.assign point (.var place x) right) (σ.set x n hfits)
  | expression {statement : Stmt} {v : Value} (h : statement.Evaluates σ v) :
      Executes σ statement σ
  | print {point : Point} {type : Ty} {arguments : List Stmt}
      (h : ∀ argument ∈ arguments, ∃ v, argument.Evaluates σ v) :
      Executes σ (.call point "print" type arguments) σ
  | ret {point : Point} {values : List Stmt} (h : ∀ value ∈ values, ∃ v, value.Evaluates σ v) :
      Executes σ (.ret point values) σ

/-! ### Executions -/

/-- Whether an edge can be taken. -/
def Edge.Passes (e : Edge) (σ : Valuation) : Prop :=
  ∀ guard, e.guard = some guard → ∃ v, guard.Evaluates σ v ∧ v.truthy = true

/-- Some execution from the entry comes to position `i` of node `n` with the valuation `σ`. -/
inductive Graph.Reaches (g : Graph) : Nat → Nat → Valuation → Prop where
  | entry (σ : Valuation) : Reaches g g.entry 0 σ
  | statement {n i : Nat} {statement : Stmt} {σ τ : Valuation} (hreach : Reaches g n i σ)
      (hstatement : (g.statementsAt n)[i]? = some statement) (hexecute : statement.Executes σ τ) :
      Reaches g n (i + 1) τ
  | edge {e : Edge} {σ : Valuation} (he : e ∈ g.edges)
      (hreach : Reaches g e.source (g.statementsAt e.source).length σ) (hpass : e.Passes σ) :
      Reaches g e.target 0 σ

/-! ### An execution of the loop that counts -/

namespace Graph.Counting

theorem counter_isScalar : counter.IsScalar := ⟨rfl, rfl⟩

theorem truth_fits (holds : Bool) : (Value.number (.ofTruth holds)).Fits counter.type := by
  refine ⟨_, rfl, ?_⟩
  cases holds with
  | false => exact ⟨0, rfl⟩
  | true => exact ⟨1, rfl⟩

def zeros : Valuation where
  value _ := .ofTruth false
  fits x hx := by
    obtain ⟨name, type, role⟩ := x
    cases type with
    | bool => exact ⟨false, rfl⟩
    | int => exact ⟨_, rfl, 0, rfl⟩
    | float => exact ⟨_, rfl⟩
    | _ => cases hx.2

/-- The counter was reset. -/
def atStart : Valuation := zeros.set counter (.ofTruth false) (truth_fits false)

/-- The counter was reset and incremented once. -/
def afterOne : Valuation := atStart.set counter (.ofTruth true) (truth_fits true)

theorem below_atStart : below.Evaluates atStart (.ofTruth true) := by
  have hten : (Stmt.literal place (.int 10)).Evaluates atStart (.number ⟨10, by decide +kernel⟩) :=
    .literal (by decide +kernel)
  have hholds : Comparison.lt.holds 0 10 = true := by decide +kernel
  exact .compare (show Comparison.lt.callName? = some "lt" from rfl) (.var counter_isScalar) hten
    hholds.symm

theorem increment_atStart : increment.Executes atStart afterOne := by
  have hone : (Stmt.literal place (.int 1)).Evaluates atStart (.number (.ofTruth true)) :=
    .literal (by decide +kernel)
  have hsum : Arithmetic.add.Gives (.number (.ofTruth false)) (.number (.ofTruth true))
      (.number (.ofTruth true)) := ⟨0 + 1, rfl, by decide +kernel⟩
  exact .assign counter_isScalar
    (.arithmetic (.var counter_isScalar) hone hsum (truth_fits true)) (truth_fits true)

/-- An execution comes to the end of the body of the loop. -/
theorem reaches_afterOne : graph.Reaches 2 1 afterOne := by
  have hentry : graph.Reaches 0 0 zeros := .entry zeros
  have hreset : graph.Reaches 0 1 atStart :=
    hentry.statement rfl (.assign counter_isScalar (.literal (by decide +kernel)) (truth_fits false))
  have hhead : graph.Reaches 1 0 atStart :=
    Reaches.edge (e := ⟨0, 1, .plain, none⟩) List.mem_cons_self hreset fun _ h => by cases h
  have hbody : graph.Reaches 2 0 atStart := by
    refine Reaches.edge (e := ⟨1, 2, .loopIn, some below⟩)
      (List.mem_cons_of_mem _ List.mem_cons_self) hhead fun guard hguard => ?_
    obtain rfl := Option.some.inj hguard
    exact ⟨_, below_atStart, Value.truthy_ofTruth true⟩
  exact hbody.statement rfl increment_atStart

end Graph.Counting

end FlowAnalysis
