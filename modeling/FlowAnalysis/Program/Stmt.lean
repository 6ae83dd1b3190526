import FlowAnalysis.Program.Expr

/-!
Statements, the units that a control flow graph is made of.

Operators and built-in functions are calls by name, so that a statement is either an access to a
value, an assignment, a return or the raising of an error. Every part keeps its place in the
source.
-/
namespace FlowAnalysis

/-- A place in the source. -/
structure Point where
  line : Nat
  column : Nat
  deriving DecidableEq

def Point.text (p : Point) : String := toString p.line ++ ":" ++ toString p.column

/-- A statement or a part of one, each with its place. -/
inductive Stmt where
  | literal (point : Point) (value : Literal)
  | var (point : Point) (x : Identifier)
  | item (point : Point) (type : Ty) (target key : Stmt)
  | slice (point : Point) (type : Ty) (target : Stmt) (lower upper stride : Option Stmt)
  | list (point : Point) (type : Ty) (items : List Stmt)
  | set (point : Point) (type : Ty) (items : List Stmt)
  | dict (point : Point) (type : Ty) (keys values : List Stmt)
  | field (point : Point) (type : Ty) (target : Stmt) (name : String)
  | call (point : Point) (name : String) (type : Ty) (arguments : List Stmt)
  | assign (point : Point) (left right : Stmt)
  | ret (point : Point) (values : List Stmt)
  | raise (point : Point)

namespace Stmt

def point : Stmt → Point
  | literal point _ => point
  | var point _ => point
  | item point _ _ _ => point
  | slice point _ _ _ _ _ => point
  | list point _ _ => point
  | set point _ _ => point
  | dict point _ _ _ => point
  | field point _ _ _ => point
  | call point _ _ _ => point
  | assign point _ _ => point
  | ret point _ => point
  | raise point => point

mutual

/-- The variables accessed, one for each occurrence. -/
def occurrences : Stmt → List Identifier
  | literal _ _ => []
  | var _ x => [x]
  | item _ _ target key => target.occurrences ++ key.occurrences
  | slice _ _ target lower upper stride =>
    target.occurrences ++ occurrencesOption lower ++ occurrencesOption upper
      ++ occurrencesOption stride
  | list _ _ items => occurrencesAll items
  | set _ _ items => occurrencesAll items
  | dict _ _ keys values => occurrencesAll keys ++ occurrencesAll values
  | field _ _ target _ => target.occurrences
  | call _ _ _ arguments => occurrencesAll arguments
  | assign _ left right => left.occurrences ++ right.occurrences
  | ret _ values => occurrencesAll values
  | raise _ => []

def occurrencesAll : List Stmt → List Identifier
  | [] => []
  | s :: ss => s.occurrences ++ occurrencesAll ss

/-- The variables that a statement accesses if it is there. -/
def occurrencesOption : Option Stmt → List Identifier
  | none => []
  | some s => s.occurrences

end

/-- The variables accessed, in the order of their first occurrence. -/
def vars (s : Stmt) : OrderedSet Identifier := .ofList s.occurrences

mutual

/-- The text of a statement. The stride of a slice is not shown. -/
def text : Stmt → String
  | literal _ value => value.text
  | var _ x => x.text
  | item _ _ target key => target.text ++ "[" ++ key.text ++ "]"
  | slice _ _ target lower upper _ =>
    target.text ++ "[" ++ textOption lower ++ ":" ++ textOption upper ++ "]"
  | list _ _ items => "[" ++ ", ".intercalate (texts items) ++ "]"
  | set _ _ items => "\x7b" ++ ", ".intercalate (texts items) ++ "\x7d"
  | dict _ _ keys values =>
    "\x7b" ++ ", ".intercalate ((texts keys).zipWith (fun k v => k ++ ": " ++ v) (texts values))
      ++ "\x7d"
  | field _ _ target name => target.text ++ "." ++ name
  | call _ name _ arguments => name ++ "(" ++ ", ".intercalate (texts arguments) ++ ")"
  | assign _ left right => left.text ++ " = " ++ right.text
  | ret _ values => "return " ++ ", ".intercalate (texts values)
  | raise _ => "raise"

def texts : List Stmt → List String
  | [] => []
  | s :: ss => s.text :: texts ss

def textOption : Option Stmt → String
  | none => ""
  | some s => s.text

end

end Stmt

end FlowAnalysis
