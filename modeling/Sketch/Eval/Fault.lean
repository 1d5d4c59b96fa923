import Sketch.Eval.Builtin
import Sketch.Expr.Basic

/-! Why an evaluation fails. Each fault has one wording, and is located at the expression that is
to blame. -/
namespace Sketch

/-- Forms that test a condition. -/
inductive Tester where
  | choice | loop
  deriving DecidableEq, Repr

/-- How often the forms of one loop may run. -/
def maxRounds : Nat := 1000000

inductive Fault where
  | undefinedSymbol (name : Bytes)
  | tooDeep
  | emptyList
  | notCallable (list : Bytes)
  | unimplemented (name : Reserved)
  | wrongArity (builtin : Builtin)
  | notNumber (builtin : Builtin) (got : Kind)
  | notString (ink : Ink) (got : Kind)
  | divisionByZero
  | incomparable (left right : Kind)
  | equalityOfNothing (index : Nat)
  | equalityOf (kind : Kind)
  | missingCondition
  | badCondition (tester : Tester) (got : Kind)
  | missingBranch (taken : Bool)
  | bindingsNotList
  | malformedBinding
  | missingBinding
  | unboundPlace
  | missingValue
  | tooManyRounds
  deriving DecidableEq

def Tester.name : Tester → Bytes
  | .choice => bytes "if"
  | .loop => bytes "while"

def Fault.message : Fault → Bytes
  | .undefinedSymbol name => bytes "Symbol " ++ name ++ bytes " undefined"
  | .tooDeep => bytes "Maximum nesting depth exceeded"
  | .emptyList => bytes "Cannot evaluate empty list"
  | .notCallable list => bytes "Cannot evaluate list " ++ list
  | .unimplemented name =>
    bytes "Unimplemented built-in function " ++ (Builtin.reserved name).name
  | .wrongArity builtin => builtin.arityMessage
  | .notNumber builtin got => builtin.title ++ bytes " requires numbers, got " ++ got.name
  | .notString ink got => ink.name ++ bytes " requires a string, got " ++ got.name
  | .divisionByZero => bytes "Division by zero"
  | .incomparable left right =>
    bytes "Comparison requires numbers, got " ++ left.name ++ bytes " and " ++ right.name
  | .equalityOfNothing 0 => bytes "Cannot evaluate first argument for equality"
  | .equalityOfNothing index =>
    bytes "Cannot evaluate argument " ++ decimal index ++ bytes " for equality"
  | .equalityOf kind => bytes "Equality comparison not supported for type " ++ kind.name
  | .missingCondition => bytes "Cannot evaluate condition for if statement"
  | .badCondition tester got =>
    bytes "Unsupported condition type for " ++ tester.name ++ bytes ": " ++ got.name
  | .missingBranch true => bytes "if true branch produced no result"
  | .missingBranch false => bytes "if false branch produced no result"
  | .bindingsNotList => bytes "First argument to `let` must be a list"
  | .malformedBinding => bytes "Bindings must be of form (symbol expr)"
  | .missingBinding => bytes "Expression did not evaluate to an expression"
  | .unboundPlace => bytes "The first argument to set must be a symbol in scope"
  | .missingValue => bytes "The second argument to set must be an expression"
  | .tooManyRounds => bytes "while exceeded " ++ decimal maxRounds ++ bytes " iterations"

structure EvalError where
  fault : Fault
  loc : Int
  deriving DecidableEq

def EvalError.message (e : EvalError) : Bytes := e.fault.message

end Sketch
