import FlowAnalysis.Domain
import FlowAnalysis.Ordered.Map

/-!
Stores: an element of a domain for every identifier.

Stores are ordered, joined, met and widened identifier by identifier, and only if both have the
same identifiers in the same order. One bottom entry makes the whole store bottom, unless it is a
length. A store without entries is top.
-/
namespace FlowAnalysis

/-- Elements of a domain under identifiers. -/
abbrev Store (α : Type) := OrderedMap Identifier α

namespace Store

variable {α : Type}

/-- One entry for each identifier. An identifier given twice keeps its first place. -/
def ofIdentifiers (identifiers : List Identifier) (initial : Identifier → α) : Store α :=
  .ofList (identifiers.map fun x => (x, initial x))

/-- The combinations of two lists, position by position. -/
def combineValues (f : α → α → Outcome α) : List α → List α → Outcome (List α)
  | a :: as, b :: bs => do
    let c ← f a b
    let cs ← combineValues f as bs
    return c :: cs
  | _, _ => pure []

def combine (f : α → α → Outcome α) (s t : Store α) : Outcome (Store α) :=
  if s.keys = t.keys then do
    let values ← combineValues f s.values t.values
    return s.withValues values
  else throw .differentIdentifiers

def text (elementText : α → String) (s : Store α) : String :=
  ", ".intercalate (s.entries.map fun e => e.1.text ++ " -> " ++ elementText e.2)

variable [Domain α]

instance : Extremal (Store α) where
  bottom s := s.mapValues Extremal.bottom
  top s := s.mapValues Extremal.top
  isBottom s := s.entries.any fun e => e.1.role != .length && Extremal.isBottom e.2
  isTop s := s.values.all Extremal.isTop

/-- Whether every entry of `s` is below the entry of `t` for the same identifier. -/
def pointwiseLe (s t : Store α) : Bool :=
  s.entries.all fun e => (t.get? e.1).any (Domain.le e.2)

instance : Domain (Store α) where
  le s t := (Extremal.settledLe s t).getD (pointwiseLe s t)
  join s t := (Extremal.settledJoin s t).elim (combine Domain.join s t) pure
  meet s t := (Extremal.settledMeet s t).elim (combine Domain.meet s t) pure
  widen s t := (Extremal.settledJoin s t).elim (combine Domain.widen s t) pure

end Store

end FlowAnalysis
