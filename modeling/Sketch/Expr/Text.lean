import Sketch.Expr.Basic
import Sketch.Number.Decimal

/-! The text of an expression: numbers with fifteen significant digits, strings between quotes with
nothing escaped, lists in parentheses with one blank between elements. -/
namespace Sketch.Expr

def text : Expr → Bytes
  | .nothing => bytes "nothing"
  | .number _ value => significant 15 value
  | .string _ text => quote :: text ++ [quote]
  | .boolean _ true => bytes "true"
  | .boolean _ false => bytes "false"
  | .symbol _ name => name
  | .list _ elements => lparen :: [blank].intercalate (elements.map text) ++ [rparen]

end Sketch.Expr
