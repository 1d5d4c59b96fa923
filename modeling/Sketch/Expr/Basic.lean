import Sketch.Bytes

/-! Expressions of the language, which are also its values. Every expression but `nothing` carries
the byte offset at which its source text begins, or `noLoc` when it was computed. -/
namespace Sketch

/-- The location of what has none. -/
abbrev noLoc : Int := -1

/-- How many lists may be nested in one another, in a source and in an evaluation. -/
def maxDepth : Nat := 1000

inductive Expr where
  | nothing
  | number (loc : Int) (value : Float)
  | string (loc : Int) (text : Bytes)
  | boolean (loc : Int) (value : Bool)
  | symbol (loc : Int) (name : Bytes)
  | list (loc : Int) (elements : List Expr)
  deriving Inhabited

inductive Kind where
  | nothing | number | string | boolean | symbol | list
  deriving DecidableEq, Repr

def Kind.name : Kind → Bytes
  | .nothing => bytes "nothing"
  | .number => bytes "number"
  | .string => bytes "string"
  | .boolean => bytes "boolean"
  | .symbol => bytes "symbol"
  | .list => bytes "list"

namespace Expr

def kind : Expr → Kind
  | .nothing => .nothing
  | .number .. => .number
  | .string .. => .string
  | .boolean .. => .boolean
  | .symbol .. => .symbol
  | .list .. => .list

def loc : Expr → Int
  | .nothing => noLoc
  | .number loc _ | .string loc _ | .boolean loc _ | .symbol loc _ | .list loc _ => loc

/-- Numbers are true when not zero, strings when not empty, booleans are themselves. Nothing else
has a truth value. -/
def truth? : Expr → Option Bool
  | .boolean _ value => some value
  | .number _ value => some (value != 0)
  | .string _ text => some (!text.isEmpty)
  | .nothing | .symbol .. | .list .. => none

end Expr

end Sketch
