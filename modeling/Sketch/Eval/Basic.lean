import Sketch.Eval.Forms

/-! The evaluator. Numbers, strings and booleans are their own values, a symbol has its innermost
binding's, and a list is a call. -/
namespace Sketch

/-- `true` and `false` are reserved, whatever the scopes hold. -/
def evalSymbol (loc : Int) (name : Bytes) : EvalM Expr :=
  if name = bytes "true" then pure (.boolean loc true)
  else if name = bytes "false" then pure (.boolean loc false)
  else do
    match ← lookup name with
    | .nothing => fail (.undefinedSymbol name) loc
    | value => pure value

/-- Evaluates inside `level` lists, with `room` for that many more. -/
def evalWithin (tracing : Bool) (room : Nat) (level : Int) (expr : Expr) : EvalM Expr :=
  match expr with
  | .nothing => stuck
  | .number .. | .string .. | .boolean .. => pure expr
  | .symbol loc name => evalSymbol loc name
  | .list loc elements =>
    traced tracing level expr <|
      match room with
      | 0 => fail .tooDeep loc
      | room + 1 => call (evalWithin tracing room (level + 1)) loc elements

def eval (tracing : Bool) (level : Int) (expr : Expr) : EvalM Expr :=
  evalWithin tracing (maxDepth - level).toNat level expr

abbrev Outcome := Except Halt Expr

/-- One evaluation at top level: whatever its outcome, the machine goes on. -/
def evalTop (tracing : Bool) (level : Int) (expr : Expr) : StateM Machine Outcome := fun m =>
  match eval tracing level expr m with
  | .ok value m => (.ok value, m)
  | .error halt m => (.error halt, m)

/-- Evaluates the expressions of a program one after another. -/
def run (tracing : Bool) (program : List Expr) : StateM Machine (List Outcome) :=
  program.mapM (evalTop tracing 0)

end Sketch
