import Sketch.Bytes

/-! What can be wrong with a source. -/
namespace Sketch

inductive Flaw where
  | strayClose
  | badNumber (token : Bytes)
  | tooDeep
  | unclosedString (text : Bytes)
  | unclosedList
  deriving DecidableEq

def Flaw.message : Flaw → Bytes
  | .strayClose => bytes "Unexpected closing parenthesis"
  | .badNumber token => bytes "Invalid number format '" ++ token ++ bytes "'"
  | .tooDeep => bytes "Maximum nesting depth exceeded"
  | .unclosedString _ => bytes "Unterminated string literal"
  | .unclosedList => bytes "Unexpected end of input - missing closing parenthesis"

/-- How many bytes of the source the flaw covers. -/
def Flaw.length : Flaw → Nat
  | .badNumber token => token.length
  | .unclosedString text => text.length + 1
  | .strayClose | .tooDeep | .unclosedList => 1

structure ParseError where
  flaw : Flaw
  loc : Nat
  deriving DecidableEq

end Sketch
