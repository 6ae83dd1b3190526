import FlowAnalysis.Ordered.Set
import FlowAnalysis.Program.Identifier
import FlowAnalysis.Program.Literal

/-!
Expressions, the values that analyses reason about.

An expression carries the type of its value where this does not follow from its parts. The module
holds equality, the type, the variables read, the negation of a condition and the text.
-/
namespace FlowAnalysis

/-- An expression over the variables of a program. -/
inductive Expr where
  | literal (value : Literal)
  | var (x : Identifier)
  /-- A value that comes from outside the program. -/
  | input (type : Ty)
  | list (type : Ty) (items : List Expr)
  | set (type : Ty) (items : List Expr)
  | dict (type : Ty) (keys values : List Expr)
  | range (start stop step : Expr)
  | length (target : Expr)
  | keys (target : Expr)
  | values (target : Expr)
  | field (type : Ty) (target : Expr) (name : String)
  | item (type : Ty) (target key : Expr)
  | slice (type : Ty) (target : Expr) (lower upper stride : Option Expr)
  | signed (type : Ty) (sign : Sign) (operand : Expr)
  | not (operand : Expr)
  | arithmetic (type : Ty) (left : Expr) (op : Arithmetic) (right : Expr)
  | connective (left : Expr) (op : Connective) (right : Expr)
  | compare (left : Expr) (op : Comparison) (right : Expr)

namespace Expr

mutual

/-- Structural equality of expressions. -/
protected def beq : Expr → Expr → Bool
  | literal a, literal b => a == b
  | var x, var y => x == y
  | input t, input u => t == u
  | list t xs, list u ys => t == u && Expr.beqAll xs ys
  | set t xs, set u ys => t == u && Expr.beqAll xs ys
  | dict t ks vs, dict u ls ws => t == u && Expr.beqAll ks ls && Expr.beqAll vs ws
  | range a b c, range a' b' c' => a.beq a' && b.beq b' && c.beq c'
  | length a, length b => a.beq b
  | keys a, keys b => a.beq b
  | values a, values b => a.beq b
  | field t a n, field u b m => t == u && a.beq b && n == m
  | item t a k, item u b l => t == u && a.beq b && k.beq l
  | slice t a l h s, slice u b l' h' s' =>
    t == u && a.beq b && Expr.beqOption l l' && Expr.beqOption h h' && Expr.beqOption s s'
  | signed t s a, signed u r b => t == u && s == r && a.beq b
  | not a, not b => a.beq b
  | arithmetic t a o b, arithmetic u a' o' b' => t == u && a.beq a' && o == o' && b.beq b'
  | connective a o b, connective a' o' b' => a.beq a' && o == o' && b.beq b'
  | compare a o b, compare a' o' b' => a.beq a' && o == o' && b.beq b'
  | _, _ => false

protected def beqAll : List Expr → List Expr → Bool
  | [], [] => true
  | a :: as, b :: bs => a.beq b && Expr.beqAll as bs
  | _, _ => false

protected def beqOption : Option Expr → Option Expr → Bool
  | none, none => true
  | some a, some b => a.beq b
  | _, _ => false

end

mutual

theorem beq_iff : ∀ a b : Expr, a.beq b = true ↔ a = b
  | literal _, b => by cases b <;> simp [Expr.beq]
  | var _, b => by cases b <;> simp [Expr.beq]
  | input _, b => by cases b <;> simp [Expr.beq]
  | list _ xs, b => by cases b <;> simp [Expr.beq, beqAll_iff xs]
  | set _ xs, b => by cases b <;> simp [Expr.beq, beqAll_iff xs]
  | dict _ ks vs, b => by
    cases b <;> simp [Expr.beq, beqAll_iff ks, beqAll_iff vs, and_assoc]
  | range x y z, b => by
    cases b <;> simp [Expr.beq, beq_iff x, beq_iff y, beq_iff z, and_assoc]
  | length x, b => by cases b <;> simp [Expr.beq, beq_iff x]
  | keys x, b => by cases b <;> simp [Expr.beq, beq_iff x]
  | values x, b => by cases b <;> simp [Expr.beq, beq_iff x]
  | field _ x _, b => by cases b <;> simp [Expr.beq, beq_iff x, and_assoc]
  | item _ x k, b => by cases b <;> simp [Expr.beq, beq_iff x, beq_iff k, and_assoc]
  | slice _ x l h s, b => by
    cases b <;>
      simp [Expr.beq, beq_iff x, beqOption_iff l, beqOption_iff h, beqOption_iff s, and_assoc]
  | signed _ _ x, b => by cases b <;> simp [Expr.beq, beq_iff x, and_assoc]
  | not x, b => by cases b <;> simp [Expr.beq, beq_iff x]
  | arithmetic _ x _ y, b => by
    cases b <;> simp [Expr.beq, beq_iff x, beq_iff y, and_assoc]
  | connective x _ y, b => by cases b <;> simp [Expr.beq, beq_iff x, beq_iff y, and_assoc]
  | compare x _ y, b => by cases b <;> simp [Expr.beq, beq_iff x, beq_iff y, and_assoc]

theorem beqAll_iff : ∀ as bs : List Expr, Expr.beqAll as bs = true ↔ as = bs
  | [], bs => by cases bs <;> simp [Expr.beqAll]
  | a :: as, bs => by cases bs <;> simp [Expr.beqAll, beq_iff a, beqAll_iff as]

theorem beqOption_iff : ∀ a b : Option Expr, Expr.beqOption a b = true ↔ a = b
  | none, b => by cases b <;> simp [Expr.beqOption]
  | some a, b => by cases b <;> simp [Expr.beqOption, beq_iff a]

end

instance : DecidableEq Expr := fun a b => decidable_of_iff (a.beq b = true) (beq_iff a b)

def ofInt (n : Int) : Expr := literal (.int n)

def ofBool (b : Bool) : Expr := literal (.bool b)

def type : Expr → Ty
  | literal value => value.type
  | var x => x.type
  | input type => type
  | list type _ => type
  | set type _ => type
  | dict type _ _ => type
  | range _ _ _ => .list .int
  | length _ => .int
  | keys target => .set target.type.keyType
  | values target => .list target.type.valueType
  | field type _ _ => type
  | item type _ _ => type
  | slice type _ _ _ _ => type
  | signed type _ _ => type
  | not _ => .bool
  | arithmetic type _ _ _ => type
  | connective _ _ _ => .bool
  | compare _ _ _ => .bool

/-- Arithmetic whose type follows from its operands. -/
def typedArithmetic (left : Expr) (op : Arithmetic) (right : Expr) : Expr :=
  arithmetic (op.resultType left.type right.type) left op right

mutual

/-- The variables read, one for each occurrence. -/
def occurrences : Expr → List Identifier
  | literal _ => []
  | var x => [x]
  | input _ => []
  | list _ items => occurrencesAll items
  | set _ items => occurrencesAll items
  | dict _ ks vs => occurrencesAll ks ++ occurrencesAll vs
  | range start stop step => start.occurrences ++ stop.occurrences ++ step.occurrences
  | length target => target.occurrences
  | keys target => target.occurrences
  | values target => target.occurrences
  | field _ target _ => target.occurrences
  | item _ target key => target.occurrences ++ key.occurrences
  | slice _ target lower upper stride =>
    target.occurrences ++ occurrencesOption lower ++ occurrencesOption upper
      ++ occurrencesOption stride
  | signed _ _ operand => operand.occurrences
  | not operand => operand.occurrences
  | arithmetic _ left _ right => left.occurrences ++ right.occurrences
  | connective left _ right => left.occurrences ++ right.occurrences
  | compare left _ right => left.occurrences ++ right.occurrences

def occurrencesAll : List Expr → List Identifier
  | [] => []
  | e :: es => e.occurrences ++ occurrencesAll es

/-- The variables that an expression reads if it is there. -/
def occurrencesOption : Option Expr → List Identifier
  | none => []
  | some e => e.occurrences

end

/-- The variables read, in the order of their first occurrence. -/
def vars (e : Expr) : OrderedSet Identifier := .ofList e.occurrences

/-- The condition that holds exactly if `e` does not, with the negation pushed through connectives
and comparisons. -/
def negate : Expr → Expr
  | literal (.bool value) => ofBool !value
  | not operand => operand
  | connective left op right => connective left.negate op.dual right.negate
  | compare left op right => compare left op.negated right
  | e => not e

mutual

def text : Expr → String
  | literal value => value.text
  | var x => x.text
  | input type => "input[" ++ type.text ++ "]"
  | list _ items => "[" ++ ", ".intercalate (texts items) ++ "]"
  | set _ items => "\x7b" ++ ", ".intercalate (texts items) ++ "\x7d"
  | dict _ ks vs =>
    "\x7b" ++ ", ".intercalate ((texts ks).zipWith (fun k v => k ++ ": " ++ v) (texts vs))
      ++ "\x7d"
  | range start stop step =>
    "range(" ++ start.text ++ ", " ++ stop.text ++ ", " ++ step.text ++ ")"
  | length target => "len(" ++ target.text ++ ")"
  | keys target => target.text ++ ".keys()"
  | values target => target.text ++ ".values()"
  | field _ target name => target.text ++ "." ++ name
  | item _ target key => target.text ++ "[" ++ key.text ++ "]"
  | slice _ target lower upper stride =>
    target.text ++ "[" ++ textAfter "" lower ++ ":" ++ textAfter "" upper
      ++ textAfter ":" stride ++ "]"
  | signed _ sign operand => sign.text ++ operand.text
  | not operand => "not " ++ operand.text
  | arithmetic _ left op right => "(" ++ left.text ++ " " ++ op.text ++ " " ++ right.text ++ ")"
  | connective left op right => "(" ++ left.text ++ " " ++ op.text ++ " " ++ right.text ++ ")"
  | compare left op right => left.text ++ " " ++ op.text ++ " " ++ right.text

def texts : List Expr → List String
  | [] => []
  | e :: es => e.text :: texts es

/-- The text of an expression behind a mark, nothing if it is absent. -/
def textAfter (mark : String) : Option Expr → String
  | none => ""
  | some e => mark ++ e.text

end

end Expr

end FlowAnalysis
