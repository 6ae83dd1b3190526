import FlowAnalysis.Interval.Evaluate

/-!
Environments given by tables.
-/
namespace FlowAnalysis

/-- What is known about the contents of a container. -/
structure ContainerFacts where
  /-- The range of what a key holds. -/
  element : Interval
  keys : Interval
  values : Interval

/-- Ranges of identifiers, and facts about containers by name. -/
structure FactTable where
  values : List (Identifier × Interval)
  containers : List (String × ContainerFacts)

namespace FactTable

/-- The facts about the container of a name. -/
def container? (t : FactTable) (name : String) : Option ContainerFacts :=
  (t.containers.find? fun e => e.1 == name).map Prod.snd

/-- The environment of a table: what is not listed is top, and no key is found under an empty range
of keys. -/
def environment (t : FactTable) : Environment where
  value x := ((t.values.find? fun e => e.1 == x).map Prod.snd).getD .top
  element container key :=
    if key.isBottom then .bottom
    else ((t.container? container.name).map ContainerFacts.element).getD .top
  members container view :=
    match view with
    | .keys => ((t.container? container.name).map ContainerFacts.keys).getD .top
    | .values => ((t.container? container.name).map ContainerFacts.values).getD .top

end FactTable

end FlowAnalysis
