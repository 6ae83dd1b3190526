/-!
Types of program values.

Numbers are booleans, integers and floats. Strings, lists and tuples are sequences, indexed from
zero; lists, sets and dictionaries are containers. A type answers what indexes a value of it and
what is found there, and `any` stands wherever nothing is known.
-/
namespace FlowAnalysis

/-- The type of a value. -/
inductive Ty where
  | bool
  | int
  | float
  | str
  | none
  | list (item : Ty)
  | set (item : Ty)
  | dict (key value : Ty)
  | tuple (items : List Ty)
  | any

namespace Ty

mutual

/-- Structural equality of types. -/
protected def beq : Ty → Ty → Bool
  | bool, bool => true
  | int, int => true
  | float, float => true
  | str, str => true
  | none, none => true
  | list a, list b => a.beq b
  | set a, set b => a.beq b
  | dict k v, dict l w => k.beq l && v.beq w
  | tuple as, tuple bs => Ty.beqAll as bs
  | any, any => true
  | _, _ => false

protected def beqAll : List Ty → List Ty → Bool
  | [], [] => true
  | a :: as, b :: bs => a.beq b && Ty.beqAll as bs
  | _, _ => false

end

mutual

theorem beq_iff : ∀ a b : Ty, a.beq b = true ↔ a = b
  | bool, b => by cases b <;> simp [Ty.beq]
  | int, b => by cases b <;> simp [Ty.beq]
  | float, b => by cases b <;> simp [Ty.beq]
  | str, b => by cases b <;> simp [Ty.beq]
  | none, b => by cases b <;> simp [Ty.beq]
  | any, b => by cases b <;> simp [Ty.beq]
  | list a, b => by cases b <;> simp [Ty.beq, beq_iff a]
  | set a, b => by cases b <;> simp [Ty.beq, beq_iff a]
  | dict k v, b => by cases b <;> simp [Ty.beq, beq_iff k, beq_iff v]
  | tuple as, b => by cases b <;> simp [Ty.beq, beqAll_iff as]

theorem beqAll_iff : ∀ as bs : List Ty, Ty.beqAll as bs = true ↔ as = bs
  | [], bs => by cases bs <;> simp [Ty.beqAll]
  | a :: as, bs => by cases bs <;> simp [Ty.beqAll, beq_iff a, beqAll_iff as]

end

instance : DecidableEq Ty := fun a b => decidable_of_iff (a.beq b = true) (beq_iff a b)

def isNumeric : Ty → Bool
  | bool | int | float => true
  | _ => false

/-- Whether every value is a whole number. -/
def isIntegral : Ty → Bool
  | bool | int => true
  | _ => false

def isSequence : Ty → Bool
  | str | list _ | tuple _ => true
  | _ => false

def isContainer : Ty → Bool
  | list _ | set _ | dict _ _ => true
  | _ => false

/-- The type of what indexes a value: positions, members or keys. -/
def keyType : Ty → Ty
  | str | list _ | tuple _ => int
  | set item => item
  | dict key _ => key
  | _ => any

/-- The type of what a value holds; a tuple has one only if all its items agree. -/
def valueType : Ty → Ty
  | str => str
  | list item => item
  | set item => item
  | dict _ value => value
  | tuple (item :: items) => if items.all (· == item) then item else any
  | _ => any

mutual

def text : Ty → String
  | bool => "bool"
  | int => "int"
  | float => "float"
  | str => "str"
  | none => "None"
  | list item => "List[" ++ item.text ++ "]"
  | set item => "Set[" ++ item.text ++ "]"
  | dict key value => "Dict[" ++ key.text ++ ", " ++ value.text ++ "]"
  | tuple items => "Tuple[" ++ ", ".intercalate (texts items) ++ "]"
  | any => "Any"

def texts : List Ty → List String
  | [] => []
  | t :: ts => t.text :: texts ts

end

end Ty

/-- The part of a container that a membership test looks at. -/
inductive View where
  | keys
  | values
  deriving DecidableEq

/-- Membership in a dictionary is about its keys, in anything else about its items. -/
def View.ofMembership : Ty → View
  | .dict _ _ => keys
  | _ => values

end FlowAnalysis
