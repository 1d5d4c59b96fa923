import Sketch.Main
import Sketch.Scope.Tree
import Sketch.Source.Cursor
import Sketch.Proofs.Source.Token
import Sketch.Proofs.Source.Descent
import Sketch.Proofs.Source.Grammar
import Sketch.Proofs.Source.Skip
import Sketch.Proofs.Source.Diagnosis
import Sketch.Proofs.Source.Acceptance
import Sketch.Proofs.Eval.Lasting
import Sketch.Proofs.Eval.Names
import Sketch.Proofs.Eval.Simulation
import Sketch.Proofs.Eval.Related
import Sketch.Proofs.Eval.Visible
import Sketch.Proofs.Expr.Nodes
import Sketch.Proofs.Eval.Inner
import Sketch.Proofs.Eval.Halting
import Sketch.Proofs.Eval.Drawn
import Sketch.Proofs.Source.Trees
import Sketch.Proofs.Source.Spans
import Sketch.Proofs.Eval.Safety
import Sketch.Proofs.Console.Location
import Sketch.Proofs.Console.Marker
import Sketch.Proofs.Expr.Relocate
import Sketch.Proofs.Source.Joined
import Sketch.Proofs.Eval.Relocation
import Sketch.Proofs.Eval.Values
import Sketch.Proofs.Console.Lines
import Sketch.Proofs.Console.Modes
import Sketch.Proofs.Source.Printed
import Sketch.Proofs.Eval.Course
import Sketch.Proofs.Eval.Deeds
import Sketch.Proofs.Eval.Unwinding
import Sketch.Proofs.Eval.Effects
import Sketch.Proofs.Eval.Commuting
import Sketch.Proofs.Console.Stream
import Sketch.Proofs.Console.Conversation
import Sketch.Proofs.Eval.Order
import Sketch.Proofs.Eval.Tracing
import Sketch.Proofs.Eval.Loops
import Sketch.Proofs.Scope.History
import Sketch.Proofs.Eval.Assignments
import Sketch.Proofs.Eval.Bindings
import Sketch.Proofs.Eval.Arguments
import Sketch.Proofs.Eval.Arithmetic
import Sketch.Proofs.Eval.Comparisons
import Sketch.Proofs.Expr.Same
import Sketch.Proofs.Eval.Equality
import Sketch.Proofs.Source.Resumption
import Sketch.Proofs.Source.Cut
import Sketch.Proofs.Source.Visits
import Sketch.Proofs.Source.Marked
import Sketch.Proofs.Source.Progress
import Sketch.Proofs.Source.Bounds
