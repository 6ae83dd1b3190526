import FlowAnalysis.Interval.State

/-!
States that record how they were made.

A trace state collects the steps from one event of an analysis to the next: statements prepared,
assignments, conditions, scopes, widenings. It shows which operations an analysis performs on a
graph and in which order, whatever the domain.
-/
namespace FlowAnalysis

/-- A record of events. -/
structure TraceState where
  reachable : Bool
  /-- The last event. -/
  last : String
  /-- The steps between successive events, in ascending order. -/
  trail : List String
  result : Alternatives

namespace TraceState

/-- Adds a step to an ascending trail. -/
def insertStep (step : String) : List String → List String
  | [] => [step]
  | other :: rest =>
    if step < other then step :: other :: rest
    else if step = other then other :: rest
    else other :: insertStep step rest

def mergeTrails (trail : List String) (steps : List String) : List String :=
  steps.foldl (fun trail step => insertStep step trail) trail

def start : TraceState := ⟨true, "start", [], .empty⟩

/-- The step of a trail that may hold anything. -/
def topStep : String := "<top>"

/-- Records an event, unless no execution goes on. -/
def event (s : TraceState) (name : String) : TraceState :=
  if s.reachable then
    { s with trail := insertStep (s.last ++ " > " ++ name) s.trail, last := name }
  else s

instance : Extremal TraceState where
  bottom _ := ⟨false, "", [], .empty⟩
  top _ := { start with trail := [topStep] }
  isBottom s := !s.reachable
  isTop s := s.trail.contains topStep

/-- The record of both, with the later of the last events. -/
def joined (s t : TraceState) : TraceState :=
  ⟨s.reachable, if s.last < t.last then t.last else s.last, mergeTrails s.trail t.trail, .empty⟩

/-- The record common to both, with the earlier of the last events. -/
def shared (s t : TraceState) : TraceState :=
  ⟨s.reachable, if t.last < s.last then t.last else s.last,
    s.trail.filter t.trail.contains, .empty⟩

instance : Domain TraceState where
  le s t := (Extremal.settledLe s t).getD (s.trail.all t.trail.contains)
  join s t := pure ((Extremal.settledJoin s t).getD (joined s t))
  meet s t := pure ((Extremal.settledMeet s t).getD (shared s t))
  widen s t := pure ((Extremal.settledJoin s t).getD ((joined s t).event "widen"))

/-- Records an assignment to a variable or an item. -/
def assign (s : TraceState) (left right : Expr) : Outcome TraceState :=
  match left with
  | .var _ => pure (s.event ("assign " ++ left.text ++ " := " ++ right.text))
  | .item _ _ _ => pure (s.event ("assign " ++ left.text ++ " := " ++ right.text))
  | _ => throw (.unsupported "trace" ("assignment to " ++ left.text))

/-- Records a condition; a condition that is plainly false ends the execution. -/
def assume (s : TraceState) (condition : Expr) : TraceState :=
  if condition = .ofBool false then Extremal.bottom s
  else s.event ("assume " ++ condition.text)

instance : StateDomain TraceState IntervalState where
  result := result
  withResult s result := { s with result := result }
  before s point precursory :=
    s.event ("before " ++ point.text ++ " "
      ++ precursory.elim "none" fun earlier => "<" ++ earlier.text ++ ">")
  assignOne := assign
  assumeOne s condition := pure (s.assume condition)
  substituteOne s left right := pure (s.event ("substitute " ++ left.text ++ " := " ++ right.text))
  outputOne s value := pure (s.event ("output " ++ value.text))
  enterIf s := s.event "enter_if"
  exitIf s := s.event "exit_if"
  enterLoop s := s.event "enter_loop"
  exitLoop s := s.event "exit_loop"

/-- Whether two states are the same, results included. -/
def same (s t : TraceState) : Bool :=
  s.reachable == t.reachable && s.last == t.last && s.trail == t.trail && s.result.same t.result

def text (s : TraceState) : String :=
  if Extremal.isBottom s then "⊥" else "; ".intercalate s.trail ++ "; at " ++ s.last

end TraceState

end FlowAnalysis
