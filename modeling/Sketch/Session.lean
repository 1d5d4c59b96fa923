import Sketch.Eval.Basic
import Sketch.Source.Reader

/-! Sources run one after another on the same machine, where root bindings and colours persist. -/
namespace Sketch

/-- Runs `body` with a log of its own, and gives back the events in it, oldest first. -/
def logged {α : Type} (body : StateM Machine α) : StateM Machine (α × List Event) := fun m =>
  let (result, m) := body { m with log := [] }
  ((result, m.log.reverse), m)

/-- One source run: what was read, and, if it is a program, how each of its expressions came out
and what happened on the way. -/
structure Execution where
  reading : Reading
  outcomes : List Outcome
  events : List Event

/-- Runs a source, unless it has errors. -/
def execute (tracing : Bool) (source : Bytes) : StateM Machine Execution := do
  let reading := read source
  match reading.program with
  | .error _ => return ⟨reading, [], []⟩
  | .ok program =>
    let (outcomes, events) ← logged (run tracing program)
    return ⟨reading, outcomes, events⟩

namespace Execution

def succeeded (x : Execution) : Bool := x.reading.errors.isEmpty && x.outcomes.all Except.isOk

def calls (x : Execution) : List DrawCall := x.events.filterMap Event.call?

def trace (x : Execution) : Bytes := x.reading.trace ++ traceText x.events

end Execution

end Sketch
