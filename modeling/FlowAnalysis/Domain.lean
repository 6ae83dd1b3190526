import FlowAnalysis.Error

/-!
Abstract domains.

An element of a domain describes a set of concrete values or states. Bottom describes none and top
describes all of them, and whatever involves one of the two is settled by that alone: only proper
elements are looked into. A bottom or top element is made in the likeness of a given one, because
some domains have a shape (the identifiers of a store, the kind of the keys of a container).
-/
namespace FlowAnalysis

/-- Elements with a least and a greatest one of each shape. -/
class Extremal (α : Type) where
  /-- The least element of the shape of the given one. -/
  bottom : α → α
  /-- The greatest element of the shape of the given one. -/
  top : α → α
  isBottom : α → Bool
  isTop : α → Bool

namespace Extremal

variable {α : Type} [Extremal α]

/-- Whether `a` is below `b`, if bottom or top settles it. -/
def settledLe (a b : α) : Option Bool :=
  if isBottom a || isTop b then some true
  else if isBottom b || isTop a then some false
  else none

/-- The join of `a` and `b`, if bottom or top settles it. A widening is settled the same way. -/
def settledJoin (a b : α) : Option α :=
  if isBottom a || isTop b then some b
  else if isBottom b || isTop a then some a
  else none

/-- The meet of `a` and `b`, if bottom or top settles it. -/
def settledMeet (a b : α) : Option α :=
  if isTop a || isBottom b then some b
  else if isTop b || isBottom a then some a
  else none

end Extremal

/-- An abstract domain. Combining two elements may fail where their shapes do not fit. -/
class Domain (α : Type) extends Extremal α where
  /-- Whether the first element describes no more than the second. -/
  le : α → α → Bool
  /-- An element above both. -/
  join : α → α → Outcome α
  /-- An element that describes what both do. -/
  meet : α → α → Outcome α
  /-- An element above both, chosen so that no sequence of widenings changes for ever. -/
  widen : α → α → Outcome α

end FlowAnalysis
