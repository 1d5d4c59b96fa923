import Sketch.Expr.Text
import Sketch.Proofs.Expr.Nodes

/-! Expressions moved to other places. What an expression is and how it reads does not depend on
where it stands; what is bare of locations is just that. -/
namespace Sketch.Expr

mutual
/-- The same expression with every location replaced. -/
def relocate (f : Int → Int) : Expr → Expr
  | .nothing => .nothing
  | .number loc value => .number (f loc) value
  | .string loc text => .string (f loc) text
  | .boolean loc value => .boolean (f loc) value
  | .symbol loc name => .symbol (f loc) name
  | .list loc elements => .list (f loc) (relocateAll f elements)

def relocateAll (f : Int → Int) : List Expr → List Expr
  | [] => []
  | element :: rest => relocate f element :: relocateAll f rest
end

/-- What is left of an expression without its locations. -/
def bare (e : Expr) : Expr := e.relocate fun _ => noLoc

theorem relocateAll_eq_map (f : Int → Int) (elements : List Expr) :
    relocateAll f elements = elements.map (relocate f) := by
  induction elements with
  | nil => rfl
  | cons element rest ih => rw [relocateAll, ih, List.map_cons]

mutual
theorem relocate_relocate (f g : Int → Int) :
    ∀ e : Expr, (e.relocate f).relocate g = e.relocate (g ∘ f)
  | .nothing | .number .. | .string .. | .boolean .. | .symbol .. => rfl
  | .list _ elements => by
    rw [relocate, relocate, relocate, relocateAll_relocateAll f g elements, Function.comp_apply]

theorem relocateAll_relocateAll (f g : Int → Int) :
    ∀ es : List Expr, relocateAll g (relocateAll f es) = relocateAll (g ∘ f) es
  | [] => rfl
  | element :: rest => by
    rw [relocateAll, relocateAll, relocateAll, relocate_relocate f g element,
      relocateAll_relocateAll f g rest]
end

@[simp] theorem bare_relocate (f : Int → Int) (e : Expr) : (e.relocate f).bare = e.bare :=
  relocate_relocate f _ e

mutual
theorem text_relocate (f : Int → Int) : ∀ e : Expr, (e.relocate f).text = e.text
  | .nothing | .number .. | .string .. | .symbol .. => by simp only [relocate, text]
  | .boolean _ value => by cases value <;> simp only [relocate, text]
  | .list _ elements => by rw [relocate, text, text, map_text_relocateAll f elements]

theorem map_text_relocateAll (f : Int → Int) :
    ∀ es : List Expr, (relocateAll f es).map text = es.map text
  | [] => rfl
  | element :: rest => by
    rw [relocateAll, List.map_cons, List.map_cons, text_relocate f element,
      map_text_relocateAll f rest]
end

/-- Expressions that are the same without locations read the same. -/
theorem text_eq_of_bare_eq {e e' : Expr} (same : e.bare = e'.bare) : e.text = e'.text := by
  rw [← text_relocate (fun _ => noLoc) e, ← text_relocate (fun _ => noLoc) e']
  exact congrArg text same

mutual
theorem relocate_id : ∀ e : Expr, e.relocate id = e
  | .nothing | .number .. | .string .. | .boolean .. | .symbol .. => rfl
  | .list _ elements => by rw [relocate, relocateAll_id elements, id]

theorem relocateAll_id : ∀ es : List Expr, relocateAll id es = es
  | [] => rfl
  | element :: rest => by rw [relocateAll, relocate_id element, relocateAll_id rest]
end

end Sketch.Expr
