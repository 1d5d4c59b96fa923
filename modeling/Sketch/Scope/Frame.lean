import Sketch.Expr.Basic

/-! One scope's own bindings, kept in strictly increasing bytewise order of their names. -/
namespace Sketch

structure Frame where
  entries : List (Bytes × Expr)
  sorted : entries.Pairwise fun a b => a.1 < b.1

namespace Frame

def empty : Frame := ⟨[], .nil⟩

def find? (f : Frame) (name : Bytes) : Option Expr := f.entries.lookup name

def has (f : Frame) (name : Bytes) : Bool := (f.find? name).isSome

def names (f : Frame) : List Bytes := f.entries.map Prod.fst

/-- Puts a binding in its place among sorted ones, instead of an earlier one of the same name. -/
def insert (name : Bytes) (value : Expr) : List (Bytes × Expr) → List (Bytes × Expr)
  | [] => [(name, value)]
  | (key, old) :: rest =>
    if name < key then (name, value) :: (key, old) :: rest
    else if name = key then (name, value) :: rest
    else (key, old) :: insert name value rest

theorem mem_insert {name : Bytes} {value : Expr} {entries : List (Bytes × Expr)}
    {entry : Bytes × Expr} (member : entry ∈ insert name value entries) :
    entry = (name, value) ∨ entry ∈ entries := by
  fun_induction insert name value entries <;> grind

theorem lt_of_not_lt_of_ne {a b : Bytes} (notLess : ¬ a < b) (differs : a ≠ b) : b < a := by
  have := List.not_lt.1 notLess
  grind

theorem sorted_insert (name : Bytes) (value : Expr) {entries : List (Bytes × Expr)}
    (sorted : entries.Pairwise fun a b => a.1 < b.1) :
    (insert name value entries).Pairwise fun a b => a.1 < b.1 := by
  fun_induction insert name value entries with
  | case1 => simp
  | case2 key old rest less =>
    refine List.pairwise_cons.2 ⟨fun entry member => ?_, sorted⟩
    rcases List.mem_cons.1 member with rfl | member
    · exact less
    · exact List.lt_trans less ((List.pairwise_cons.1 sorted).1 entry member)
  | case3 old rest => simpa using sorted
  | case4 key old rest notLess differs ih =>
    have ⟨above, sorted⟩ := List.pairwise_cons.1 sorted
    refine List.pairwise_cons.2 ⟨fun entry member => ?_, ih sorted⟩
    rcases mem_insert member with rfl | member
    · exact lt_of_not_lt_of_ne notLess differs
    · exact above entry member

def set (f : Frame) (name : Bytes) (value : Expr) : Frame :=
  ⟨insert name value f.entries, sorted_insert name value f.sorted⟩

theorem lookup_cons_eq_ite (name key : Bytes) (value : Expr) (entries : List (Bytes × Expr)) :
    ((key, value) :: entries).lookup name
      = if name = key then some value else entries.lookup name := by
  by_cases same : name = key
  · simp [same]
  · have differs : (name == key) = false := by simpa using same
    simp [List.lookup_cons, differs, same]

theorem lookup_insert (name other : Bytes) (value : Expr) (entries : List (Bytes × Expr)) :
    (insert name value entries).lookup other
      = if other = name then some value else entries.lookup other := by
  fun_induction insert name value entries with
  | case1 => exact lookup_cons_eq_ite ..
  | case2 => exact lookup_cons_eq_ite ..
  | case3 old rest => simp only [lookup_cons_eq_ite]; grind
  | case4 key old rest notLess differs ih => simp only [lookup_cons_eq_ite, ih]; grind

@[simp] theorem find?_empty (name : Bytes) : empty.find? name = none := rfl

theorem find?_set (f : Frame) (name other : Bytes) (value : Expr) :
    (f.set name value).find? other = if other = name then some value else f.find? other :=
  lookup_insert ..

end Frame

end Sketch
