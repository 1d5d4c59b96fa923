import Sketch.Proofs.Expr.Relocate

/-! Equal nodes told apart. In a numbered expression every node is located at its own place in the
order of the nodes, so its location says which node it is; moved back, it is the expression that
was numbered. -/
namespace Sketch.Expr

mutual
/-- The same expression with its nodes counted from `start` on, in their order. -/
def numberedFrom (start : Nat) : Expr → Expr
  | .nothing => .nothing
  | .number _ value => .number start value
  | .string _ text => .string start text
  | .boolean _ value => .boolean start value
  | .symbol _ name => .symbol start name
  | .list _ elements => .list start (numberedAll (start + 1) elements)

def numberedAll (start : Nat) : List Expr → List Expr
  | [] => []
  | element :: rest =>
    numberedFrom start element :: numberedAll (start + element.nodes.length) rest
end

def numbered (e : Expr) : Expr := e.numberedFrom 0

mutual
theorem relocate_numberedFrom {f : Int → Int} {start : Nat} : ∀ {e : Expr},
    (∀ i node, e.nodes[i]? = some node → f (start + i : Nat) = node.loc) →
      (e.numberedFrom start).relocate f = e
  | .nothing, _ => rfl
  | .number .., back | .string .., back | .boolean .., back | .symbol .., back => by
    simp only [numberedFrom, relocate]
    rw [show f start = _ from back 0 _ rfl]
    rfl
  | .list _ elements, back => by
    have inner : ∀ i node, (insideAll elements)[i]? = some node →
        f (start + 1 + i : Nat) = node.loc := by
      intro i node found
      rw [Nat.add_right_comm]
      exact back (i + 1) node found
    rw [numberedFrom, relocate, relocateAll_numberedAll inner, show f start = _ from back 0 _ rfl]
    rfl

theorem relocateAll_numberedAll {f : Int → Int} {start : Nat} : ∀ {elements : List Expr},
    (∀ i node, (insideAll elements)[i]? = some node → f (start + i : Nat) = node.loc) →
      relocateAll f (numberedAll start elements) = elements
  | [], _ => rfl
  | element :: rest, back => by
    have first : ∀ i node, element.nodes[i]? = some node → f (start + i : Nat) = node.loc := by
      intro i node found
      refine back i node ?_
      rw [insideAll_cons, List.getElem?_append_left (List.getElem?_eq_some_iff.1 found).1, found]
    have later : ∀ i node, (insideAll rest)[i]? = some node →
        f (start + element.nodes.length + i : Nat) = node.loc := by
      intro i node found
      rw [Nat.add_assoc]
      refine back (element.nodes.length + i) node ?_
      rw [insideAll_cons, List.getElem?_append_right (Nat.le_add_right _ _),
        Nat.add_sub_cancel_left, found]
    rw [numberedAll, relocateAll, relocate_numberedFrom first, relocateAll_numberedAll later]
end

/-- Where the nodes of an expression are located, in their order. -/
def locAt (e : Expr) (index : Int) : Int := (e.nodes[index.toNat]?.getD .nothing).loc

theorem relocate_numbered (e : Expr) : e.numbered.relocate e.locAt = e := by
  refine relocate_numberedFrom fun i node found => ?_
  rw [Nat.zero_add, locAt, Int.toNat_natCast, found]
  rfl

mutual
theorem inside_relocate (f : Int → Int) :
    ∀ e : Expr, (e.relocate f).inside = e.inside.map (relocate f)
  | .nothing | .number .. | .string .. | .boolean .. | .symbol .. => rfl
  | .list _ elements => insideAll_relocateAll f elements

theorem insideAll_relocateAll (f : Int → Int) :
    ∀ es : List Expr, insideAll (relocateAll f es) = (insideAll es).map (relocate f)
  | [] => rfl
  | element :: rest => by
    rw [relocateAll, insideAll, insideAll, inside_relocate f element, insideAll_relocateAll f rest,
      List.map_cons, List.map_append]
end

theorem nodes_relocate (f : Int → Int) (e : Expr) :
    (e.relocate f).nodes = e.nodes.map (relocate f) := by
  rw [nodes, nodes, inside_relocate, List.map_cons]

theorem kind_relocate (f : Int → Int) (e : Expr) : (e.relocate f).kind = e.kind := by
  cases e <;> rfl

theorem nodes_numbered (e : Expr) : e.numbered.nodes.map (relocate e.locAt) = e.nodes := by
  rw [← nodes_relocate, relocate_numbered]

theorem NullFree.numbered {e : Expr} (clean : e.NullFree) : e.numbered.NullFree := by
  intro node member
  have original : node.relocate e.locAt ∈ e.nodes := by
    rw [← e.nodes_numbered]
    exact List.mem_map_of_mem member
  rw [← kind_relocate e.locAt]
  exact clean _ original

mutual
theorem map_loc_nodes_numberedFrom (start : Nat) : ∀ {e : Expr}, e.NullFree →
    (e.numberedFrom start).nodes.map loc = (List.range' start e.nodes.length).map Int.ofNat
  | .nothing, clean => absurd rfl (clean _ Expr.nothing.mem_nodes_self)
  | .number .., _ | .string .., _ | .boolean .., _ | .symbol .., _ => rfl
  | .list _ elements, clean => by
    have inner := map_loc_insideAll_numberedAll (start + 1) (nullFree_list_iff.1 clean)
    simp only [numberedFrom, nodes, inside, List.map_cons, inner, List.length_cons,
      List.range'_succ]
    rfl

theorem map_loc_insideAll_numberedAll (start : Nat) : ∀ {elements : List Expr},
    (∀ element ∈ elements, element.NullFree) →
      (insideAll (numberedAll start elements)).map loc =
        (List.range' start (insideAll elements).length).map Int.ofNat
  | [], _ => rfl
  | element :: rest, clean => by
    obtain ⟨first, later⟩ := List.forall_mem_cons.1 clean
    rw [numberedAll, insideAll_cons, insideAll_cons, List.map_append,
      map_loc_nodes_numberedFrom _ first, map_loc_insideAll_numberedAll _ later, ← List.map_append,
      List.length_append, List.range'_append_1]
end

theorem pairwise_loc_numbered {e : Expr} (clean : e.NullFree) :
    (e.numbered.nodes.map loc).Pairwise (· < ·) := by
  rw [numbered, map_loc_nodes_numberedFrom 0 clean, List.pairwise_map]
  exact (List.pairwise_lt_range' 1).imp Int.ofNat_lt.2

/-- The location of a numbered node says which node it is. -/
theorem getElem?_nodes_of_mem_numbered {e copy : Expr} (clean : e.NullFree)
    (member : copy ∈ e.numbered.nodes) :
    e.nodes[copy.loc.toNat]? = some (copy.relocate e.locAt) := by
  obtain ⟨i, found⟩ := List.mem_iff_getElem?.1 member
  have located : (e.numbered.nodes.map loc)[i]? = some copy.loc := by
    rw [List.getElem?_map, found]
    rfl
  rw [numbered, map_loc_nodes_numberedFrom 0 clean, List.getElem?_map] at located
  obtain ⟨index, inRange, here⟩ := Option.map_eq_some_iff.1 located
  obtain ⟨bound, rfl⟩ := List.getElem?_eq_some_iff.1 inRange
  rw [← here, List.getElem_range', Int.ofNat_eq_natCast, Int.toNat_natCast, Nat.zero_add,
    Nat.one_mul, ← e.nodes_numbered, List.getElem?_map, found]
  rfl

end Sketch.Expr
