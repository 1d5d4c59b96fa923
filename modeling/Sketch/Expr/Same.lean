import Sketch.Expr.Basic

/-! Equality, of values and of whole expressions. Locations do not count, and numbers compare as
doubles do, so an undefined number is not even the same as itself. -/
namespace Sketch.Expr

/-- Equality of values, which have to be of one type. -/
def equals : Expr → Expr → Bool
  | .number _ x, .number _ y => x == y
  | .string _ x, .string _ y => x == y
  | .boolean _ x, .boolean _ y => x == y
  | _, _ => false

mutual
/-- Structural equality. -/
def same : Expr → Expr → Bool
  | .nothing, .nothing => true
  | .number _ x, .number _ y => x == y
  | .string _ x, .string _ y => x == y
  | .boolean _ x, .boolean _ y => x == y
  | .symbol _ x, .symbol _ y => x == y
  | .list _ xs, .list _ ys => sameAll xs ys
  | _, _ => false

def sameAll : List Expr → List Expr → Bool
  | [], [] => true
  | x :: xs, y :: ys => same x y && sameAll xs ys
  | _, _ => false
end

end Sketch.Expr
