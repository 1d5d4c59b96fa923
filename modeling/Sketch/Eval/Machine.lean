import Sketch.Eval.Event
import Sketch.Scope.Chain

/-! What an evaluation runs on: the visible scopes, the canvas, and the log of what happened. A
failing evaluation keeps every effect it had before it failed. -/
namespace Sketch

structure Machine where
  scopes : Scopes
  canvas : Canvas := {}
  /-- Newest first. -/
  log : List Event := []

/-- How an evaluation ends early: by an error of the program, or stuck on an expression that holds
`nothing` where an operand belongs, which no source can spell. -/
inductive Halt where
  | error (e : EvalError)
  | stuck

abbrev EvalM := EStateM Halt Machine

def fail {α : Type} (fault : Fault) (loc : Int) : EvalM α := throw (.error ⟨fault, loc⟩)

def stuck {α : Type} : EvalM α := throw .stuck

namespace Machine

/-- Ready to run, with the size of the canvas bound in the root scope. -/
def start (width height : Float) : Machine where
  scopes := [(Frame.empty.set (bytes "width") (.number noLoc width)).set
    (bytes "height") (.number noLoc height)]

def record (m : Machine) (event : Event) : Machine := { m with log := event :: m.log }

def enterScope (m : Machine) : Machine := { m with scopes := m.scopes.enter }

def exitScope (m : Machine) : Machine := { m with scopes := m.scopes.exit }

end Machine

/-- Runs `body` in a new scope, which is gone afterwards however `body` ends. -/
def inScope {α : Type} (body : EvalM α) : EvalM α := fun m =>
  match body m.enterScope with
  | .ok value m => .ok value m.exitScope
  | .error halt m => .error halt m.exitScope

/-- The value of `body`, or none if it fails with an error. -/
def attempt {α : Type} (body : EvalM α) : EvalM (Option α) := fun m =>
  match body m with
  | .ok value m => .ok (some value) m
  | .error (.error _) m => .ok none m
  | .error .stuck m => .error .stuck m

/-- Logs the evaluation of `list` by `body` from its start to its end, when tracing. -/
def traced (tracing : Bool) (level : Int) (list : Expr) (body : EvalM Expr) : EvalM Expr :=
  if tracing then fun m =>
    match body (m.record (.enter level list)) with
    | .ok value m => .ok value (m.record (.leave level (.ok value)))
    | .error (.error e) m => .error (.error e) (m.record (.leave level (.error e)))
    | .error .stuck m => .error .stuck m
  else body

def lookup (name : Bytes) : EvalM Expr := do return Scopes.lookup (← get).scopes name

def owner? (name : Bytes) : EvalM (Option Nat) := do return Scopes.owner? (← get).scopes name

def assign (scope : Nat) (name : Bytes) (value : Expr) : EvalM Unit :=
  modify fun m => { m with scopes := m.scopes.setAt scope name value }

def setColour (ink : Ink) (colour : Bytes) : EvalM Unit :=
  modify fun m => { m with canvas := m.canvas.setColour ink colour }.record (.ink ink colour)

/-- Makes the calls that `shape` consists of on the canvas as it is now. -/
def draw (shape : Canvas → List DrawCall) : EvalM Unit :=
  modify fun m => (shape m.canvas).foldl (fun m call => m.record (.draw call)) m

end Sketch
