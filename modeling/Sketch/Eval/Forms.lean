import Sketch.Eval.Machine
import Sketch.Expr.Same

/-! What each built-in does with its arguments. The arguments arrive unevaluated, together with the
evaluator to use on them, so a form decides itself what is evaluated, in which order and how often.
An error is located at the argument to blame, never at a value. -/
namespace Sketch

abbrev Evaluator := Expr → EvalM Expr

/-- The result without arguments. -/
def Operation.unit : Operation → Float
  | .add | .subtract => 0
  | .multiply | .divide => 1

def Operation.apply : Operation → Float → Float → Float
  | .add, x, y => x + y
  | .subtract, x, y => x - y
  | .multiply, x, y => x * y
  | .divide, x, y => x / y

def Relation.holds : Relation → Float → Float → Bool
  | .greater, x, y => x > y
  | .greaterEq, x, y => x ≥ y
  | .less, x, y => x < y
  | .lessEq, x, y => x ≤ y

namespace Form

def numberOf (eval : Evaluator) (builtin : Builtin) (arg : Expr) : EvalM Float := do
  match ← eval arg with
  | .number _ x => pure x
  | value => fail (.notNumber builtin value.kind) arg.loc

/-- Continues a calculation with the value of one more argument. -/
def operate (eval : Evaluator) (op : Operation) (result : Float) (arg : Expr) : EvalM Float := do
  let x ← numberOf eval (.arithmetic op) arg
  if op == .divide && x == 0 then fail .divisionByZero arg.loc
  else pure (op.apply result x)

/-- A single argument is taken from zero or from one, several are folded from the left. -/
def arithmetic (eval : Evaluator) (op : Operation) (args : List Expr) : EvalM Expr := do
  let result ← match args with
    | [] => pure op.unit
    | [arg] => operate eval op op.unit arg
    | first :: rest => do
      let x ← numberOf eval (.arithmetic op) first
      rest.foldlM (operate eval op) x
  return .number noLoc result

/-- Goes through neighbouring values, each with its argument, up to the first pair of numbers that
is not in the relation. -/
def chained (rel : Relation) (arg left : Expr) : List (Expr × Expr) → EvalM Bool
  | [] => pure true
  | (next, right) :: rest =>
    match left, right with
    | .number _ x, .number _ y => if rel.holds x y then chained rel next right rest else pure false
    | _, _ => fail (.incomparable left.kind right.kind) arg.loc

def comparison (eval : Evaluator) (rel : Relation) (args : List Expr) : EvalM Expr := do
  match args.zip (← args.mapM eval) with
  | (arg, left) :: rest => return .boolean noLoc (← chained rel arg left rest)
  | [] => stuck

/-- An argument of an equality must have a value. -/
def comparand (eval : Evaluator) (arg : Expr) (index : Nat) : EvalM Expr := do
  match ← eval arg with
  | .nothing => fail (.equalityOfNothing index) arg.loc
  | value => pure value

/-- Every value is compared with the first one. -/
def equality (eval : Evaluator) (args : List Expr) : EvalM Expr := do
  let values ← args.zipIdx.mapM fun (arg, index) => comparand eval arg index
  match args, values with
  | arg :: _, first :: others =>
    match first with
    | .symbol .. | .list .. => fail (.equalityOf first.kind) arg.loc
    | _ => return .boolean noLoc (others.all (·.equals first))
  | _, _ => stuck

/-- Only the chosen branch is evaluated, and it must produce a value. -/
def choice (eval : Evaluator) (condition yes no : Expr) : EvalM Expr := do
  match ← eval condition with
  | .nothing => fail .missingCondition condition.loc
  | value =>
    match value.truth? with
    | none => fail (.badCondition .choice value.kind) condition.loc
    | some truth =>
      let branch := if truth then yes else no
      match ← eval branch with
      | .nothing => fail (.missingBranch truth) branch.loc
      | value => pure value

def holdsNow (eval : Evaluator) (condition : Expr) : EvalM Bool := do
  let value ← eval condition
  match value.truth? with
  | none => fail (.badCondition .loop value.kind) condition.loc
  | some truth => pure truth

/-- Runs `body` as long as `test` holds, at most `rounds` times. -/
def repeatWhile (test : EvalM Bool) (body : EvalM Unit) (exceeded : EvalM Unit) :
    (rounds : Nat) → EvalM Unit
  | 0 => do if ← test then exceeded else pure ()
  | rounds + 1 => do
    if ← test then
      body
      repeatWhile test body exceeded rounds
    else pure ()

def loop (eval : Evaluator) (loc : Int) (condition : Expr) (forms : List Expr) : EvalM Expr := do
  repeatWhile (holdsNow eval condition) (forms.forM fun form => discard (eval form))
    (fail .tooManyRounds loc) maxRounds
  return .boolean noLoc false

/-- Evaluates one `(symbol expr)` in the innermost scope and binds the symbol there. -/
def bindOne (eval : Evaluator) : Expr → EvalM Unit
  | .list _ [.symbol _ name, expr] => do
    match ← eval expr with
    | .nothing => fail .missingBinding expr.loc
    | value => assign 0 name value
  | .nothing | .list _ [.nothing, _] => stuck
  | other => fail .malformedBinding other.loc

/-- The bindings are made in order in a scope of their own, so later ones see earlier ones. The
result is that of the last form. -/
def binding (eval : Evaluator) (bindings : Expr) (forms : List Expr) : EvalM Expr :=
  match bindings with
  | .list _ bindings => inScope do
    bindings.forM (bindOne eval)
    forms.foldlM (fun _ form => eval form) .nothing
  | .nothing => stuck
  | other => fail .bindingsNotList other.loc

/-- The symbol that a place names: itself, or the one it evaluates to. -/
def placeName? (eval : Evaluator) : Expr → EvalM (Option Bytes)
  | .symbol _ name => pure (some name)
  | .nothing => stuck
  | place => do
    match ← attempt (eval place) with
    | some (.symbol _ name) => pure (some name)
    | _ => pure none

/-- Rebinds a symbol in the scope that holds it. The scope is chosen before the value is evaluated,
and no binding is ever created. -/
def assignment (eval : Evaluator) (place expr : Expr) : EvalM Expr := do
  let some name ← placeName? eval place | fail .unboundPlace place.loc
  let some scope ← owner? name | fail .unboundPlace place.loc
  match ← eval expr with
  | .nothing => fail .missingValue expr.loc
  | value =>
    assign scope name value
    return value

/-- A colour component is rounded down and limited to a byte. -/
def component (x : Float) : Bytes := decimal x.toUInt8.toNat

def rgbColour (r g b : Float) : Bytes :=
  bytes "rgb(" ++ component r ++ bytes "," ++ component g ++ bytes "," ++ component b ++ bytes ")"

def rgb (eval : Evaluator) (args : List Expr) : EvalM Expr := do
  match ← args.mapM (numberOf eval .rgb) with
  | [r, g, b] => return .string noLoc (rgbColour r g b)
  | _ => stuck

def setInk (eval : Evaluator) (ink : Ink) (arg : Expr) : EvalM Expr := do
  match ← eval arg with
  | .string _ colour =>
    setColour ink colour
    return .nothing
  | value => fail (.notString ink value.kind) arg.loc

def clearInk (ink : Ink) : EvalM Expr := do
  setColour ink noColour
  return .nothing

/-- Nothing is drawn before all four numbers are known. -/
def drawing (eval : Evaluator) (builtin : Builtin)
    (shape : Float → Float → Float → Float → Canvas → List DrawCall) (args : List Expr) :
    EvalM Expr := do
  match ← args.mapM (numberOf eval builtin) with
  | [a, b, c, d] =>
    draw (shape a b c d)
    return .nothing
  | _ => stuck

end Form

/-- Applies a built-in to as many arguments as it accepts. -/
def Builtin.apply (eval : Evaluator) (loc : Int) : Builtin → List Expr → EvalM Expr
  | .arithmetic op, args => Form.arithmetic eval op args
  | .comparison rel, args => Form.comparison eval rel args
  | .equality, args => Form.equality eval args
  | .choice, [condition, yes, no] => Form.choice eval condition yes no
  | .binding, bindings :: forms => Form.binding eval bindings forms
  | .assignment, [place, expr] => Form.assignment eval place expr
  | .loop, condition :: forms => Form.loop eval loc condition forms
  | .rgb, args => Form.rgb eval args
  | .setInk ink, [arg] => Form.setInk eval ink arg
  | .clearInk ink, [] => Form.clearInk ink
  | .rect, args => Form.drawing eval .rect (fun x y w h canvas => canvas.rect x y w h) args
  | .line, args =>
    Form.drawing eval .line (fun x₁ y₁ x₂ y₂ canvas => canvas.line x₁ y₁ x₂ y₂) args
  | _, _ => stuck

/-- Evaluates a list by its head, which must be the name of a built-in. -/
def call (eval : Evaluator) (loc : Int) (elements : List Expr) : EvalM Expr :=
  match elements with
  | [] => fail .emptyList loc
  | .nothing :: _ => stuck
  | .symbol headLoc name :: args =>
    match Builtin.ofName? name with
    | none => fail (.notCallable (Expr.list loc elements).text) loc
    | some (.reserved name) => fail (.unimplemented name) headLoc
    | some builtin =>
      if builtin.arity.accepts args.length then builtin.apply eval loc args
      else fail (.wrongArity builtin) loc
  | _ => fail (.notCallable (Expr.list loc elements).text) loc

end Sketch
