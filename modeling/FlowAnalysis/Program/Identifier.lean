import FlowAnalysis.Program.Ty

/-!
Identifiers of program variables and of what is known about them.

Beside a variable itself, an analysis keeps the length of a sequence or container and summaries
of its keys and of its values. Each of these goes under the variable's name with another role.
-/
namespace FlowAnalysis

/-- What an identifier stands for. -/
inductive Role where
  | variable
  | length
  | keys
  | values
  deriving DecidableEq

/-- A name with a type and a role. -/
structure Identifier where
  name : String
  type : Ty
  role : Role
  deriving DecidableEq

namespace Identifier

def lengthOf (x : Identifier) : Identifier := ⟨x.name, .int, .length⟩

def keysOf (x : Identifier) : Identifier := ⟨x.name, x.type.keyType, .keys⟩

def valuesOf (x : Identifier) : Identifier := ⟨x.name, x.type.valueType, .values⟩

/-- Whether `x` is a variable of the program itself. -/
def isPlain (x : Identifier) : Bool := x.role == .variable

/-- Whether `x` is a variable whose length is worth keeping. -/
def hasLength (x : Identifier) : Bool :=
  x.isPlain && (x.type.isSequence || x.type.isContainer)

def text (x : Identifier) : String :=
  match x.role with
  | .variable => x.name
  | .length => "len(" ++ x.name ++ ")"
  | .keys => "keys(" ++ x.name ++ ")"
  | .values => "values(" ++ x.name ++ ")"

end Identifier

end FlowAnalysis
