import Sketch.Scope.Chain

/-! Scopes grown from one root, numbered in the order in which they were entered. Any of them can
be entered again, so they form a tree; what a scope sees is the chain of its ancestors. -/
namespace Sketch

structure Scope where
  frame : Frame
  parent : Option Nat

/-- The root is scope 0. -/
structure ScopeTree where
  scopes : List Scope

namespace ScopeTree

def root : ScopeTree := ⟨[⟨.empty, none⟩]⟩

/-- The frames from a scope up to the root. A parent is always older than its children. -/
def chain (tree : ScopeTree) (number : Nat) : Scopes :=
  match tree.scopes[number]? with
  | none => []
  | some ⟨frame, none⟩ => [frame]
  | some ⟨frame, some parent⟩ =>
    if parent < number then frame :: tree.chain parent else [frame]
termination_by number

/-- A new child of a scope, and its number. -/
def enter (tree : ScopeTree) (number : Nat) : Nat × ScopeTree :=
  (tree.scopes.length, ⟨tree.scopes ++ [⟨.empty, some number⟩]⟩)

def parent? (tree : ScopeTree) (number : Nat) : Option Nat :=
  tree.scopes[number]?.bind Scope.parent

def set (tree : ScopeTree) (number : Nat) (name : Bytes) (value : Expr) : ScopeTree :=
  ⟨tree.scopes.modify number fun scope => { scope with frame := scope.frame.set name value }⟩

def lookup (tree : ScopeTree) (number : Nat) (name : Bytes) : Expr :=
  Scopes.lookup (tree.chain number) name

def has (tree : ScopeTree) (number : Nat) (name : Bytes) : Bool :=
  tree.scopes[number]?.any (·.frame.has name)

/-- The names bound in the scope itself, in bytewise order. -/
def names (tree : ScopeTree) (number : Nat) : List Bytes :=
  (tree.scopes[number]?.map (·.frame.names)).getD []

end ScopeTree

end Sketch
