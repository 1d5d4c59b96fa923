import Sketch.Eval.Basic
import Sketch.Proofs.Expr.Nodes

/-! A call evaluates nothing but what stands inside it, so two evaluators that do the same there are
the same to the call. How much room there is for nesting therefore does not matter to an expression
that fits. -/
namespace Sketch

theorem mapM_congr {α β : Type} {f g : α → EvalM β} {xs : List α} (same : ∀ x ∈ xs, f x = g x) :
    xs.mapM f = xs.mapM g := by
  induction xs with
  | nil => rfl
  | cons x xs ih =>
    obtain ⟨first, rest⟩ := List.forall_mem_cons.1 same
    rw [List.mapM_cons, List.mapM_cons, first, ih rest]

theorem foldlM_congr {α β : Type} {f g : β → α → EvalM β} {xs : List α}
    (same : ∀ x ∈ xs, ∀ b, f b x = g b x) (start : β) : xs.foldlM f start = xs.foldlM g start := by
  induction xs generalizing start with
  | nil => rfl
  | cons x xs ih =>
    obtain ⟨first, rest⟩ := List.forall_mem_cons.1 same
    rw [List.foldlM_cons, List.foldlM_cons, first start]
    exact bind_congr (ih rest)

theorem forM_congr {α : Type} {f g : α → EvalM Unit} {xs : List α} (same : ∀ x ∈ xs, f x = g x) :
    xs.forM f = xs.forM g := by
  induction xs with
  | nil => rfl
  | cons x xs ih =>
    obtain ⟨first, rest⟩ := List.forall_mem_cons.1 same
    rw [List.forM, List.forM, first, ih rest]

namespace Form

variable {ev ev' : Evaluator}

theorem numberOf_congr {arg : Expr} (same : ev arg = ev' arg) (builtin : Builtin) :
    numberOf ev builtin arg = numberOf ev' builtin arg := by
  rw [numberOf, numberOf, same]

theorem operate_congr {arg : Expr} (same : ev arg = ev' arg) (op : Operation) (x : Float) :
    operate ev op x arg = operate ev' op x arg := by
  rw [operate, operate, numberOf_congr same]

theorem arithmetic_congr {args : List Expr} (same : ∀ arg ∈ args, ev arg = ev' arg)
    (op : Operation) : arithmetic ev op args = arithmetic ev' op args := by
  match args with
  | [] => rfl
  | [arg] => simp only [arithmetic, operate_congr (same arg List.mem_cons_self)]
  | first :: second :: rest =>
    obtain ⟨head, tail⟩ := List.forall_mem_cons.1 same
    have folded (x : Float) : (second :: rest).foldlM (operate ev op) x =
        (second :: rest).foldlM (operate ev' op) x :=
      foldlM_congr (fun arg member => operate_congr (tail arg member) op) x
    simp only [arithmetic, numberOf_congr head, folded]

theorem comparison_congr {args : List Expr} (same : ∀ arg ∈ args, ev arg = ev' arg)
    (rel : Relation) : comparison ev rel args = comparison ev' rel args := by
  rw [comparison, comparison, mapM_congr same]

theorem comparand_congr {arg : Expr} (same : ev arg = ev' arg) (index : Nat) :
    comparand ev arg index = comparand ev' arg index := by
  rw [comparand, comparand, same]

theorem equality_congr {args : List Expr} (same : ∀ arg ∈ args, ev arg = ev' arg) :
    equality ev args = equality ev' args := by
  unfold equality
  congr 1
  exact mapM_congr fun entry member =>
    comparand_congr (same entry.1 (List.fst_mem_of_mem_zipIdx member)) entry.2

theorem choice_congr {condition yes no : Expr}
    (same : ∀ arg ∈ [condition, yes, no], ev arg = ev' arg) :
    choice ev condition yes no = choice ev' condition yes no := by
  have branch (b : Bool) : ev (if b then yes else no) = ev' (if b then yes else no) := by
    cases b <;> simp [same]
  rw [choice, choice, same condition (by simp)]
  simp only [branch]

theorem loop_congr {condition : Expr} {forms : List Expr} (tested : ev condition = ev' condition)
    (same : ∀ form ∈ forms, ev form = ev' form) (loc : Int) :
    loop ev loc condition forms = loop ev' loc condition forms := by
  have body : (forms.forM fun form => discard (ev form)) =
      forms.forM fun form => discard (ev' form) :=
    forM_congr fun form member => by rw [same form member]
  rw [loop, loop, body, holdsNow, holdsNow, tested]

/-- The value of a binding stands two lists deep in the bindings. -/
theorem bindOne_congr {binding : Expr} (same : ∀ e ∈ binding.inside, ev e = ev' e) :
    bindOne ev binding = bindOne ev' binding := by
  unfold bindOne
  split
  · rw [same _ (by simp [Expr.inside, Expr.insideAll])]
  · rfl
  · rfl
  · rfl

theorem binding_congr {bindings : Expr} {forms : List Expr}
    (bound : ∀ e ∈ bindings.inside, ev e = ev' e) (same : ∀ form ∈ forms, ev form = ev' form) :
    binding ev bindings forms = binding ev' bindings forms := by
  unfold binding
  split
  · next loc elements =>
    have made : elements.forM (bindOne ev) = elements.forM (bindOne ev') :=
      forM_congr fun element member => bindOne_congr fun e inner =>
        bound e (Expr.nodes_subset_insideAll member (List.mem_cons_of_mem _ inner))
    rw [made, foldlM_congr fun form member _ => same form member]
  · rfl
  · rfl

theorem assignment_congr {place expr : Expr} (placed : ev place = ev' place)
    (valued : ev expr = ev' expr) : assignment ev place expr = assignment ev' place expr := by
  have named : placeName? ev place = placeName? ev' place := by
    unfold placeName?
    split
    · rfl
    · rfl
    · rw [placed]
  rw [assignment, assignment, named, valued]

theorem rgb_congr {args : List Expr} (same : ∀ arg ∈ args, ev arg = ev' arg) :
    rgb ev args = rgb ev' args := by
  rw [rgb, rgb, mapM_congr fun arg member => numberOf_congr (same arg member) _]

theorem setInk_congr {arg : Expr} (same : ev arg = ev' arg) (ink : Ink) :
    setInk ev ink arg = setInk ev' ink arg := by
  rw [setInk, setInk, same]

theorem drawing_congr {args : List Expr} (same : ∀ arg ∈ args, ev arg = ev' arg)
    (builtin : Builtin) (shape : Float → Float → Float → Float → Canvas → List DrawCall) :
    drawing ev builtin shape args = drawing ev' builtin shape args := by
  rw [drawing, drawing, mapM_congr fun arg member => numberOf_congr (same arg member) _]

end Form

theorem Builtin.apply_congr {ev ev' : Evaluator} {args : List Expr}
    (same : ∀ e ∈ Expr.insideAll args, ev e = ev' e) (loc : Int) (builtin : Builtin) :
    builtin.apply ev loc args = builtin.apply ev' loc args := by
  have each : ∀ arg ∈ args, ev arg = ev' arg := fun arg member =>
    same arg (Expr.nodes_subset_insideAll member arg.mem_nodes_self)
  unfold Builtin.apply
  split
  · exact Form.arithmetic_congr each _
  · exact Form.comparison_congr each _
  · exact Form.equality_congr each
  · exact Form.choice_congr each
  · -- of the bindings themselves nothing is evaluated, only what they hold
    refine Form.binding_congr (fun e inner => same e ?_) (List.forall_mem_cons.1 each).2
    exact Expr.nodes_subset_insideAll List.mem_cons_self (List.mem_cons_of_mem _ inner)
  · exact Form.assignment_congr (each _ (by simp)) (each _ (by simp))
  · obtain ⟨tested, forms⟩ := List.forall_mem_cons.1 each
    exact Form.loop_congr tested forms _
  · exact Form.rgb_congr each
  · exact Form.setInk_congr (each _ (by simp)) _
  · rfl
  · exact Form.drawing_congr each _ _
  · exact Form.drawing_congr each _ _
  · rfl

/-- A call evaluates nothing but what stands inside it. -/
theorem call_congr {ev ev' : Evaluator} {elements : List Expr}
    (same : ∀ e ∈ Expr.insideAll elements, ev e = ev' e) (loc : Int) :
    call ev loc elements = call ev' loc elements := by
  unfold call
  split
  · rfl
  · rfl
  · next args =>
    have inner : ∀ e ∈ Expr.insideAll args, ev e = ev' e :=
      fun e member => same e (by simp [Expr.insideAll, member])
    simp only [Builtin.apply_congr inner]
  · rfl

/-- The same on expressions up to a depth; deeper ones have no value. -/
def Evaluator.upTo (bound : Nat) (ev : Evaluator) : Evaluator := fun e =>
  if e.depth ≤ bound then ev e else pure .nothing

theorem call_upTo (ev : Evaluator) (loc : Int) (elements : List Expr) :
    call (ev.upTo (Expr.depthAll elements)) loc elements = call ev loc elements :=
  call_congr (fun _ member => if_pos (Expr.depth_le_of_mem_insideAll member)) loc

/-- Where an expression fits, neither the room nor, without tracing, the level matters. -/
theorem evalWithin_eq_of_depth_le {room room' : Nat} {e : Expr} (fits : e.depth ≤ room)
    (fits' : e.depth ≤ room') (level level' : Int) :
    evalWithin false room level e = evalWithin false room' level' e := by
  induction room generalizing room' level level' e with
  | zero =>
    cases e with
    | list => simp [Expr.depth] at fits
    | nothing | number | string | boolean | symbol => rw [evalWithin, evalWithin]
  | succ room ih =>
    cases e with
    | nothing | number | string | boolean | symbol => rw [evalWithin, evalWithin]
    | list loc elements =>
      rw [Expr.depth] at fits fits'
      obtain ⟨left, rfl⟩ : ∃ left, room' = left + 1 := ⟨room' - 1, by omega⟩
      rw [evalWithin, evalWithin]
      refine call_congr (fun e member => ?_) loc
      have bounded := Expr.depth_le_of_mem_insideAll member
      exact ih (by omega) (by omega) _ _

end Sketch
