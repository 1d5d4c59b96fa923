import Sketch.Eval.Fault
import Sketch.Expr.Text

/-! What happens during an evaluation: lists are entered and left, inks change, and the canvas is
drawn on. -/
namespace Sketch

inductive Event where
  | enter (level : Int) (list : Expr)
  | leave (level : Int) (outcome : Except EvalError Expr)
  | ink (ink : Ink) (colour : Bytes)
  | draw (call : DrawCall)

def traceLine (level : Int) (mark : String) (text : Bytes) : Bytes :=
  bytes "[trace] " ++ blanks level.toNat ++ bytes mark ++ untilNul text ++ [newline]

/-- A change of colour shows only in the calls that use it. -/
def Event.line : Event → Bytes
  | .enter level list => traceLine level ">>> " list.text
  | .leave level (.ok value) => traceLine level "<<< " value.text
  | .leave level (.error e) => traceLine level "<<< " (bytes "[error] " ++ e.message)
  | .ink .. => []
  | .draw call => call.line

def Event.call? : Event → Option DrawCall
  | .draw call => some call
  | .enter .. | .leave .. | .ink .. => none

/-- What tracing shows of events when the drawing among them is not shown. -/
def traceText (events : List Event) : Bytes :=
  (events.filter (·.call?.isNone)).flatMap Event.line

end Sketch
