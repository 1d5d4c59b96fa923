import Sketch.Console.Diagnostic
import Sketch.Session

/-! What the console shows of an execution: first the traces and the drawing as they happen, then
one line per value and one diagnostic per error. -/
namespace Sketch

def Outcome.report (source : Bytes) : Outcome → Bytes
  | .ok .nothing => []
  | .ok value => bytes "=> " ++ untilNul value.text ++ [newline]
  | .error (.error e) => e.diagnostic.display source
  | .error .stuck => []

def Execution.report (tracing : Bool) (source : Bytes) (x : Execution) : Bytes :=
  (if tracing then x.reading.trace else [])
    ++ x.reading.errors.flatMap (·.diagnostic.display source)
    ++ x.events.flatMap Event.line
    ++ x.outcomes.flatMap (Outcome.report source)

end Sketch
