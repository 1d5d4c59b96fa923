import Sketch.Scope.Frame

/-! The scopes visible at one point of a program, innermost first. -/
namespace Sketch

abbrev Scopes := List Frame

namespace Scopes

/-- The innermost binding of a name. -/
def find? (scopes : Scopes) (name : Bytes) : Option Expr := scopes.findSome? (·.find? name)

def lookup (scopes : Scopes) (name : Bytes) : Expr := (find? scopes name).getD .nothing

/-- Which scope, counted from the innermost, holds the binding of a name that is visible. -/
def owner? (scopes : Scopes) (name : Bytes) : Option Nat := scopes.findIdx? (·.has name)

def setAt (scopes : Scopes) (index : Nat) (name : Bytes) (value : Expr) : Scopes :=
  scopes.modify index (·.set name value)

def enter (scopes : Scopes) : Scopes := .empty :: scopes

def exit (scopes : Scopes) : Scopes := scopes.tail

@[simp] theorem length_setAt (scopes : Scopes) (index : Nat) (name : Bytes) (value : Expr) :
    (setAt scopes index name value).length = scopes.length := by
  simp [setAt]

end Scopes

end Sketch
