import FlowAnalysis.Interval.State

/-!
States of the liveness analysis.

A variable is live where its value may still decide a guard or an output. The analysis goes
backward: an assignment to a live variable kills it and makes the variables of its right-hand side
live, and an assignment to one that is not live uses nothing. Bottom marks points that no
execution reaches, as an interval analysis may have found out before.
-/
namespace FlowAnalysis

/-- A state of the liveness analysis. -/
structure LivenessState where
  /-- The variables that are followed. -/
  vars : OrderedSet Identifier
  live : OrderedSet Identifier
  reachable : Bool
  result : Alternatives

namespace LivenessState

/-- Nothing is live yet, as at the end of a program. -/
def ofVariables (vars : List Identifier) : LivenessState :=
  ⟨.ofList vars, .empty, true, .empty⟩

def isLive (s : LivenessState) (x : Identifier) : Bool := s.live.contains x

/-- The followed variables of an expression become live. -/
def uses (s : LivenessState) (e : Expr) : LivenessState :=
  { s with live := s.live.union (e.vars.filter s.vars.contains) }

instance : Extremal LivenessState where
  bottom s := ⟨s.vars, .empty, false, .empty⟩
  top s := ⟨s.vars, s.vars, true, .empty⟩
  isBottom s := !s.reachable
  isTop s := s.reachable && s.live.size == s.vars.size

/-- The state with other live variables. -/
def withLive (s : LivenessState) (live : OrderedSet Identifier) : LivenessState :=
  { s with live := live, result := .empty }

instance : Domain LivenessState where
  le s t := (Extremal.settledLe s t).getD (s.live.subset t.live)
  join s t := pure ((Extremal.settledJoin s t).getD (s.withLive (s.live.union t.live)))
  meet s t := pure ((Extremal.settledMeet s t).getD (s.withLive (s.live.filter t.live.contains)))
  widen s t := pure ((Extremal.settledJoin s t).getD (s.withLive (s.live.union t.live)))

/-- The state before an assignment. An item assignment leaves its container live, since the other
items stay. -/
def substitute (s : LivenessState) (left right : Expr) : Outcome LivenessState :=
  match left with
  | .var x => pure (if s.isLive x then { s with live := s.live.erase x }.uses right else s)
  | .item _ (.var container) key =>
    pure (if s.isLive container then (s.uses key).uses right else s)
  | _ => throw (.unsupported "liveness" ("substitution of " ++ left.text))

instance : StateDomain LivenessState IntervalState where
  result := result
  withResult s result := { s with result := result }
  before s _ precursory := if precursory.any Extremal.isBottom then Extremal.bottom s else s
  assignOne _ left _ := throw (.unsupported "liveness" ("forward assignment to " ++ left.text))
  assumeOne s condition := pure (s.uses condition)
  substituteOne := substitute
  outputOne s value := pure (s.uses value)

/-- Whether two states are the same, results included. -/
def same (s t : LivenessState) : Bool :=
  s.vars.same t.vars && s.live.same t.live && s.reachable == t.reachable
    && s.result.same t.result

def text (s : LivenessState) : String :=
  if Extremal.isBottom s then "⊥"
  else "\x7b" ++ ", ".intercalate (s.live.toList.map Identifier.name) ++ "\x7d"

end LivenessState

end FlowAnalysis
