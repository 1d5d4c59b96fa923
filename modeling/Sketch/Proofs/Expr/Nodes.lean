import Sketch.Expr.Basic

/-! What an expression is made of: everything that stands inside it, and how deeply its lists are
nested. Nothing inside an expression is nested more deeply than the expression itself. -/
namespace Sketch.Expr

mutual
/-- Everything inside an expression, each list before its own elements. -/
def inside : Expr → List Expr
  | .list _ elements => insideAll elements
  | .nothing | .number .. | .string .. | .boolean .. | .symbol .. => []

def insideAll : List Expr → List Expr
  | [] => []
  | element :: rest => element :: (inside element ++ insideAll rest)
end

/-- An expression and everything inside it. -/
def nodes (e : Expr) : List Expr := e :: e.inside

/-- No node is missing. -/
def NullFree (e : Expr) : Prop := ∀ node ∈ e.nodes, node.kind ≠ .nothing

instance (e : Expr) : Decidable e.NullFree :=
  inferInstanceAs (Decidable (∀ node ∈ e.nodes, node.kind ≠ .nothing))

mutual
/-- How many lists are nested in one another. -/
def depth : Expr → Nat
  | .list _ elements => depthAll elements + 1
  | .nothing | .number .. | .string .. | .boolean .. | .symbol .. => 0

def depthAll : List Expr → Nat
  | [] => 0
  | element :: rest => max (depth element) (depthAll rest)
end

theorem mem_nodes_self (e : Expr) : e ∈ e.nodes := List.mem_cons_self

theorem insideAll_cons (element : Expr) (rest : List Expr) :
    insideAll (element :: rest) = element.nodes ++ insideAll rest := rfl

theorem insideAll_eq_flatMap (elements : List Expr) :
    insideAll elements = elements.flatMap nodes := by
  induction elements with
  | nil => rfl
  | cons element rest ih => rw [insideAll_cons, ih, List.flatMap_cons]

theorem mem_insideAll {node : Expr} {elements : List Expr} :
    node ∈ insideAll elements ↔ ∃ element ∈ elements, node ∈ element.nodes := by
  induction elements with
  | nil => simp [insideAll]
  | cons first rest ih => simp [insideAll, ih, nodes, or_assoc]

theorem nodes_subset_insideAll {element : Expr} {elements : List Expr}
    (member : element ∈ elements) : element.nodes ⊆ insideAll elements :=
  fun _ node => mem_insideAll.2 ⟨element, member, node⟩

mutual
/-- What stands inside a node stands inside the whole. -/
theorem nodes_subset_of_mem_inside :
    ∀ {e node : Expr}, node ∈ e.inside → node.nodes ⊆ e.inside
  | .list _ elements, _, member => by
    rw [inside] at member ⊢
    exact nodes_subset_of_mem_insideAll member

theorem nodes_subset_of_mem_insideAll :
    ∀ {elements : List Expr} {node : Expr}, node ∈ insideAll elements →
      node.nodes ⊆ insideAll elements
  | first :: rest, node, member => by
    rw [insideAll, List.mem_cons, List.mem_append] at member
    rw [insideAll]
    rcases member with rfl | inner | later
    · exact List.cons_subset_cons _ (List.subset_append_left _ _)
    · refine List.subset_cons_of_subset _ (List.subset_append_of_subset_left _ ?_)
      exact nodes_subset_of_mem_inside inner
    · refine List.subset_cons_of_subset _ (List.subset_append_of_subset_right _ ?_)
      exact nodes_subset_of_mem_insideAll later
end

theorem nodes_subset_nodes {e node : Expr} (member : node ∈ e.nodes) : node.nodes ⊆ e.nodes := by
  rcases List.mem_cons.1 member with rfl | inner
  · exact List.Subset.refl _
  · exact List.subset_cons_of_subset _ (nodes_subset_of_mem_inside inner)

theorem nullFree_of_atom {e : Expr} (present : e.kind ≠ .nothing) (atom : e.kind ≠ .list) :
    e.NullFree := by
  intro node member
  cases e with
  | list => contradiction
  | nothing | number | string | boolean | symbol =>
    obtain rfl : node = _ := List.mem_singleton.1 member
    exact present

theorem nullFree_list_iff {loc : Int} {elements : List Expr} :
    (Expr.list loc elements).NullFree ↔ ∀ element ∈ elements, element.NullFree := by
  constructor
  · intro clean element member node inner
    exact clean node (List.mem_cons_of_mem _ (nodes_subset_insideAll member inner))
  · intro each node member
    rcases List.mem_cons.1 member with rfl | inner
    · nofun
    · obtain ⟨element, member, inner⟩ := mem_insideAll.1 inner
      exact each element member node inner

theorem depthAll_le_iff {elements : List Expr} {bound : Nat} :
    depthAll elements ≤ bound ↔ ∀ element ∈ elements, element.depth ≤ bound := by
  induction elements with
  | nil => simp [depthAll]
  | cons first rest ih => rw [depthAll, Nat.max_le, ih, List.forall_mem_cons]

mutual
theorem depth_le_of_mem_inside :
    ∀ {e node : Expr}, node ∈ e.inside → node.depth ≤ e.depth
  | .list _ elements, node, member => by
    have bounded : node.depth ≤ depthAll elements := depth_le_of_mem_insideAll member
    rw [depth]
    omega

theorem depth_le_of_mem_insideAll :
    ∀ {elements : List Expr} {node : Expr}, node ∈ insideAll elements →
      node.depth ≤ depthAll elements
  | first :: rest, node, member => by
    rw [insideAll, List.mem_cons, List.mem_append] at member
    rw [depthAll]
    rcases member with rfl | inner | later
    · exact Nat.le_max_left _ _
    · exact Nat.le_trans (depth_le_of_mem_inside inner) (Nat.le_max_left _ _)
    · exact Nat.le_trans (depth_le_of_mem_insideAll later) (Nat.le_max_right _ _)
end

end Sketch.Expr
