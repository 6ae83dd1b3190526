import FlowAnalysis.Program.Expr

/-!
Built-in operations that a program calls by name.

Each knows how many arguments it takes and which expression it builds from them. A conversion that
cannot be followed gives an unknown value of its target type.
-/
namespace FlowAnalysis

/-- A built-in operation. -/
inductive Builtin where
  | arithmetic (op : Arithmetic)
  | comparison (op : Comparison)
  | sign (sign : Sign)
  | not
  | connective (op : Connective)
  | range
  | length
  | keys
  | values
  | input
  | cast (target : Ty)
  | print
  deriving DecidableEq

namespace Builtin

/-- The operation that a name calls. -/
def named? : String → Option Builtin
  | "add" => some (arithmetic .add)
  | "sub" => some (arithmetic .sub)
  | "mult" => some (arithmetic .mul)
  | "div" => some (arithmetic .div)
  | "eq" => some (comparison .eq)
  | "noteq" => some (comparison .ne)
  | "lt" => some (comparison .lt)
  | "lte" => some (comparison .le)
  | "gt" => some (comparison .gt)
  | "gte" => some (comparison .ge)
  | "is" => some (comparison .is)
  | "isnot" => some (comparison .isNot)
  | "in" => some (comparison .isIn)
  | "notin" => some (comparison .notIn)
  | "uadd" => some (sign .plus)
  | "usub" => some (sign .minus)
  | "not" => some not
  | "and" => some (connective .and)
  | "or" => some (connective .or)
  | "range" => some range
  | "len" => some length
  | "keys" => some keys
  | "values" => some values
  | "input" => some input
  | "int" => some (cast .int)
  | "float" => some (cast .float)
  | "bool" => some (cast .bool)
  | "str" => some (cast .str)
  | "print" => some print
  | _ => none

/-- Whether the operation takes this many arguments. -/
def admits : Builtin → Nat → Bool
  | arithmetic _, n => n == 2
  | comparison _, n => n == 2
  | sign _, n => n == 1
  | not, n => n == 1
  | connective _, n => 2 ≤ n
  | range, n => 1 ≤ n && n ≤ 3
  | length, n => n == 1
  | keys, n => n == 1
  | values, n => n == 1
  | input, n => n ≤ 1
  | cast _, n => n == 1
  | print, _ => true

/-- The conversion of a value: integer literals become float literals, values of the target type
stay, and nothing is known of any other result. -/
def convert : Ty → Expr → Expr
  | .float, .literal (.int n) => .literal (.float (.ofRat n))
  | target, e => if e.type = target then e else .input target

/-- The expression of a call with result type `type`, if the operands have an admitted number. -/
def build : Builtin → Ty → List Expr → Option Expr
  | arithmetic op, type, [left, right] => some (.arithmetic type left op right)
  | comparison op, _, [left, right] => some (.compare left op right)
  | sign s, type, [operand] => some (.signed type s operand)
  | not, _, [operand] => some (.not operand)
  | connective op, _, first :: rest => some (rest.foldl (.connective · op ·) first)
  | range, _, [stop] => some (.range (.ofInt 0) stop (.ofInt 1))
  | range, _, [start, stop] => some (.range start stop (.ofInt 1))
  | range, _, [start, stop, step] => some (.range start stop step)
  | length, _, [target] => some (.length target)
  | keys, _, [target] => some (.keys target)
  | values, _, [target] => some (.values target)
  | cast target, _, [operand] => some (convert target operand)
  | _, _, _ => none

end Builtin

end FlowAnalysis
