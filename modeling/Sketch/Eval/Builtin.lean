import Sketch.Drawing

/-! The built-ins: their names, and how many arguments each takes. -/
namespace Sketch

inductive Operation where
  | add | subtract | multiply | divide
  deriving DecidableEq, Repr

inductive Relation where
  | greater | greaterEq | less | lessEq
  deriving DecidableEq, Repr

/-- Names kept free for later. -/
inductive Reserved where
  | circle | text
  deriving DecidableEq, Repr

inductive Builtin where
  | arithmetic (op : Operation)
  | comparison (rel : Relation)
  | equality
  | choice
  | binding
  | assignment
  | loop
  | rgb
  | setInk (ink : Ink)
  | clearInk (ink : Ink)
  | rect
  | line
  | reserved (name : Reserved)
  deriving DecidableEq, Repr

/-- How many arguments are accepted. -/
inductive Arity where
  | any
  | atLeast (count : Nat)
  | exactly (count : Nat)
  deriving DecidableEq, Repr

def Arity.accepts : Arity → Nat → Bool
  | .any, _ => true
  | .atLeast least, count => least ≤ count
  | .exactly only, count => count == only

namespace Builtin

def name : Builtin → Bytes
  | .arithmetic .add => bytes "+"
  | .arithmetic .subtract => bytes "-"
  | .arithmetic .multiply => bytes "*"
  | .arithmetic .divide => bytes "/"
  | .comparison .greater => bytes ">"
  | .comparison .greaterEq => bytes ">="
  | .comparison .less => bytes "<"
  | .comparison .lessEq => bytes "<="
  | .equality => bytes "="
  | .choice => bytes "if"
  | .binding => bytes "let"
  | .assignment => bytes "set"
  | .loop => bytes "while"
  | .rgb => bytes "rgb"
  | .setInk .stroke => bytes "stroke"
  | .setInk .fill => bytes "fill"
  | .clearInk .stroke => bytes "noStroke"
  | .clearInk .fill => bytes "noFill"
  | .rect => bytes "rect"
  | .line => bytes "line"
  | .reserved .circle => bytes "circle"
  | .reserved .text => bytes "text"

def all : List Builtin :=
  [.arithmetic .add, .arithmetic .subtract, .arithmetic .multiply, .arithmetic .divide,
    .comparison .greater, .comparison .greaterEq, .comparison .less, .comparison .lessEq,
    .equality, .choice, .binding, .assignment, .loop, .rgb,
    .setInk .stroke, .setInk .fill, .clearInk .stroke, .clearInk .fill,
    .rect, .line, .reserved .circle, .reserved .text]

def table : List (Bytes × Builtin) := all.map fun b => (b.name, b)

def ofName? (name : Bytes) : Option Builtin := table.lookup name

theorem mem_all : ∀ b : Builtin, b ∈ all
  | .arithmetic op => by cases op <;> decide
  | .comparison rel => by cases rel <;> decide
  | .setInk ink => by cases ink <;> decide
  | .clearInk ink => by cases ink <;> decide
  | .reserved word => by cases word <;> decide
  | .equality | .choice | .binding | .assignment | .loop | .rgb | .rect | .line => by decide

@[simp] theorem ofName?_name (b : Builtin) : ofName? b.name = some b := by
  have found : ∀ b ∈ all, ofName? b.name = some b := by decide
  exact found b (mem_all b)

def arity : Builtin → Arity
  | .arithmetic .divide => .atLeast 1
  | .arithmetic _ => .any
  | .comparison _ | .equality | .binding => .atLeast 2
  | .choice | .rgb => .exactly 3
  | .assignment => .exactly 2
  | .loop => .atLeast 1
  | .setInk _ => .exactly 1
  | .clearInk _ => .exactly 0
  | .rect | .line => .exactly 4
  | .reserved _ => .any

/-- What a call with a number of arguments that is not accepted is told. -/
def arityMessage : Builtin → Bytes
  | .arithmetic .divide => bytes "Division requires at least one argument"
  | .comparison .greater => bytes "Greater than (>) requires at least 2 arguments"
  | .comparison .greaterEq => bytes "Greater than or equal (>=) requires at least 2 arguments"
  | .comparison .less => bytes "Less than (<) requires at least 2 arguments"
  | .comparison .lessEq => bytes "Less than or equal (<=) requires at least 2 arguments"
  | .equality => bytes "Equality (=) requires at least 2 arguments"
  | .choice => bytes "if requires exactly 3 arguments: (if condition true_expr false_expr)"
  | .binding => bytes "Not enough arguments to `let` statement"
  | .assignment => bytes "set requires 2 arguments"
  | .loop => bytes "while requires a condition"
  | .rgb => bytes "rgb requires exactly 3 arguments: (rgb r g b)"
  | .setInk ink => (Builtin.setInk ink).name ++ bytes " requires exactly 1 argument"
  | .clearInk ink => (Builtin.clearInk ink).name ++ bytes " takes no arguments"
  | .rect => bytes "rect requires exactly 4 arguments: (rect x y w h)"
  | .line => bytes "line requires exactly 4 arguments: (line x1 y1 x2 y2)"
  | .arithmetic _ | .reserved _ => []

/-- What a built-in that takes numbers is called in a message about them. -/
def title : Builtin → Bytes
  | .arithmetic .add => bytes "Addition"
  | .arithmetic .subtract => bytes "Subtraction"
  | .arithmetic .multiply => bytes "Multiplication"
  | .arithmetic .divide => bytes "Division"
  | b => b.name

end Builtin

end Sketch
