import FlowAnalysis.Error
import FlowAnalysis.Program.Builtin

/-!
The expressions that a statement may denote.

A statement that accesses a value denotes a set of alternative expressions, built from every
combination of the alternatives of its parts. Assignments, returns and raised errors denote none,
and neither do calls of unknown names or with a wrong number of arguments.
-/
namespace FlowAnalysis

/-- Alternative expressions, in the order in which they were found. -/
abbrev Alternatives := OrderedSet Expr

namespace Alternatives

/-- Every choice of one alternative for each operand, the last operand varying fastest. -/
def product (operands : List Alternatives) : List (List Expr) :=
  operands.foldl
    (fun chosen operand => chosen.flatMap fun front => operand.toList.map fun e => front ++ [e])
    [[]]

/-- The expressions built from every choice of operands. -/
def combine (operands : List Alternatives) (build : List Expr → Option Expr) : Alternatives :=
  .ofList ((product operands).filterMap build)

/-- A dictionary from its keys followed by its values. -/
def splitDict (type : Ty) (parts : List Expr) : Expr :=
  .dict type (parts.take (parts.length / 2)) (parts.drop (parts.length / 2))

/-- The slices from every choice of a target and of bounds. -/
def slices (type : Ty) (targets : Alternatives) (lowers uppers strides : List (Option Expr)) :
    Alternatives :=
  .ofList <| targets.toList.flatMap fun target => lowers.flatMap fun lower =>
    uppers.flatMap fun upper => strides.map fun stride => .slice type target lower upper stride

end Alternatives

namespace Stmt

open Alternatives

/-- The error of a statement that stands where a value is needed. -/
def misused (s : Stmt) : AnalysisError :=
  .malformed s.point ("`" ++ s.text ++ "` used as an expression")

mutual

/-- The expressions that a statement may denote. -/
def alternatives : Stmt → Outcome Alternatives
  | literal _ value => pure (.singleton (.literal value))
  | var _ x => pure (.singleton (.var x))
  | item _ type target key => do
    let targets ← target.alternatives
    let keys ← key.alternatives
    return combine [targets, keys] fun
      | [target, key] => some (.item type target key)
      | _ => none
  | slice _ type target lower upper stride => do
    let targets ← target.alternatives
    let lowers ← alternativesOption lower
    let uppers ← alternativesOption upper
    let strides ← alternativesOption stride
    return slices type targets lowers uppers strides
  | list _ type items => do
    let operands ← alternativesEach items
    return combine operands fun items => some (.list type items)
  | set _ type items => do
    let operands ← alternativesEach items
    return combine operands fun items => some (.set type items)
  | dict point type keys values =>
    if keys.length ≠ values.length then
      throw (.malformed point ("dictionary display with " ++ toString keys.length ++ " keys and "
        ++ toString values.length ++ " values"))
    else do
      let keys ← alternativesEach keys
      let values ← alternativesEach values
      return combine (keys ++ values) fun parts => some (splitDict type parts)
  | field _ type target name => do
    let targets ← target.alternatives
    return .ofList (targets.toList.map fun target => .field type target name)
  | call point name type arguments =>
    match Builtin.named? name with
    | none => throw (.unsupported "semantics" ("call to `" ++ name ++ "`"))
    | some .print => throw (.malformed point "`print` used as an expression")
    | some builtin =>
      if builtin.admits arguments.length then
        if builtin = .input then pure (.singleton (.input type))
        else do
          let operands ← alternativesEach arguments
          return combine operands (builtin.build type)
      else
        throw (.malformed point ("`" ++ name ++ "` called with " ++ toString arguments.length
          ++ " arguments"))
  | assign point left right => throw (assign point left right).misused
  | ret point values => throw (ret point values).misused
  | raise point => throw (raise point).misused

def alternativesEach : List Stmt → Outcome (List Alternatives)
  | [] => pure []
  | s :: ss => do
    let first ← s.alternatives
    let rest ← alternativesEach ss
    return first :: rest

def alternativesOption : Option Stmt → Outcome (List (Option Expr))
  | none => pure [none]
  | some s => do
    let found ← s.alternatives
    return found.toList.map some

end

/-- The alternatives of all statements of a list together. -/
def alternativesOf (statements : List Stmt) : Outcome Alternatives := do
  let each ← alternativesEach statements
  return each.foldl .union .empty

end Stmt

end FlowAnalysis
