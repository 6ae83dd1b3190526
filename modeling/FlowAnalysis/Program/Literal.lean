import FlowAnalysis.Number.Double
import FlowAnalysis.Program.Ty
import FlowAnalysis.Text.Quoted

/-!
Literals and operators of program expressions.
-/
namespace FlowAnalysis

/-- A constant written in a program. -/
inductive Literal where
  | bool (value : Bool)
  | int (value : Int)
  | float (value : Double)
  | str (value : String)
  | none
  deriving DecidableEq

namespace Literal

def type : Literal → Ty
  | bool _ => .bool
  | int _ => .int
  | float _ => .float
  | str _ => .str
  | none => .none

/-- The double that a literal counts as: booleans are zero and one, integers are rounded. -/
def number? : Literal → Option Double
  | bool value => some (.number (if value then 1 else 0))
  | int value => some (.ofRat value)
  | float value => some value
  | str _ => Option.none
  | none => Option.none

def text : Literal → String
  | bool true => "True"
  | bool false => "False"
  | int value => toString value
  | float value => value.literal
  | str value => Text.quoted value
  | none => "None"

end Literal

/-- A sign in front of a number. -/
inductive Sign where
  | plus
  | minus
  deriving DecidableEq

def Sign.text : Sign → String
  | plus => "+"
  | minus => "-"

/-- An operation on two numbers, or the concatenation of two sequences. -/
inductive Arithmetic where
  | add
  | sub
  | mul
  | div
  deriving DecidableEq

namespace Arithmetic

def text : Arithmetic → String
  | add => "+"
  | sub => "-"
  | mul => "*"
  | div => "/"

/-- The type of a result: floats absorb other numbers, division leaves the integers, and values
of one other type can only be added. -/
def resultType (op : Arithmetic) (left right : Ty) : Ty :=
  if left.isNumeric && right.isNumeric then
    if left = .float || right = .float || op = .div then .float else .int
  else if left = right && op = .add then left
  else .any

end Arithmetic

/-- A connective of two conditions. -/
inductive Connective where
  | and
  | or
  deriving DecidableEq

namespace Connective

def text : Connective → String
  | and => "and"
  | or => "or"

/-- The connective of the negated conditions. -/
def dual : Connective → Connective
  | and => or
  | or => and

end Connective

/-- A comparison of two values. -/
inductive Comparison where
  | eq
  | ne
  | lt
  | le
  | gt
  | ge
  | is
  | isNot
  | isIn
  | notIn
  deriving DecidableEq

namespace Comparison

def text : Comparison → String
  | eq => "=="
  | ne => "!="
  | lt => "<"
  | le => "<="
  | gt => ">"
  | ge => ">="
  | is => "is"
  | isNot => "is not"
  | isIn => "in"
  | notIn => "not in"

/-- The comparison that holds exactly if this one does not. -/
def negated : Comparison → Comparison
  | eq => ne
  | ne => eq
  | lt => ge
  | le => gt
  | gt => le
  | ge => lt
  | is => isNot
  | isNot => is
  | isIn => notIn
  | notIn => isIn

end Comparison

end FlowAnalysis
