import Sketch.Proofs.Expr.Nodes
import Sketch.Proofs.Source.Acceptance

/-! What the trees that are read look like. A property of atoms that passes from the elements of a
list to the list, with one level of nesting less, holds of everything that is read. -/
namespace Sketch

/-- A property of the elements read so far, if a list is being read. -/
def Aim.Each (P : Expr → Prop) : Aim → Prop
  | .expr => True
  | .items _ before => ∀ items, before = some items → ∀ e ∈ items, P e

section

variable {P : Nat → Expr → Prop} {limit : Nat}
  (atom : ∀ {level e}, e.kind ≠ .nothing → e.kind ≠ .list → P level e)
  (list : ∀ {level loc elements}, level < limit → (∀ e ∈ elements, P (level + 1) e) →
    P level (.list loc elements))
include atom list

theorem Reads.result_has {level : Nat} {aim : Aim} {p q : Place} {y : Yield} {e : Expr}
    (reads : Reads limit aim level p y q) (inside : aim ≠ .expr → level < limit)
    (before : aim.Each (P (level + 1))) (whole : y.result = some e) : P level e := by
  induction reads generalizing e with
  | string | number | symbol =>
    cases whole
    exact atom nofun nofun
  | openString | badNumber | strayClose | tooDeep | ended => contradiction
  | list _ room _ ih =>
    refine ih (fun _ => room) (fun items same => ?_) whole
    cases same
    nofun
  | closed =>
    obtain ⟨items, rfl, rfl⟩ := Option.map_eq_some_iff.1 whole
    refine list (inside nofun) fun e member => ?_
    exact before items rfl e (List.mem_reverse.1 member)
  | item _ _ _ _ first later =>
    refine later (fun _ => inside nofun) (fun newest added => ?_) whole
    obtain ⟨older, element, rfl, rfl, rfl⟩ := addItem_eq_some added
    exact List.forall_mem_cons.2 ⟨first nofun trivial rfl, before older rfl⟩

theorem ReadsForms.forms_have {p : Place} {forms : List Expr} {errors : List ParseError}
    {visits : List Visit} (reads : ReadsForms limit p forms errors visits) :
    ∀ e ∈ forms, P 0 e := by
  induction reads with
  | ended => simp
  | @form _ _ form _ _ _ _ _ _ _ readsFirst _ ih =>
    refine List.forall_mem_append.2 ⟨fun e member => ?_, ih⟩
    exact readsFirst.result_has (P := P) atom list nofun trivial (Option.mem_toList.1 member)

end

/-- Nothing is missing in a tree that was read. -/
theorem nullFree_of_mem_program {source : Bytes} {program : List Expr} {e : Expr}
    (accepted : (read source).program = .ok program) (member : e ∈ program) : e.NullFree := by
  obtain ⟨-, rfl⟩ := program_eq_ok.1 accepted
  refine (readsForms_read source).forms_have (P := fun _ e => e.NullFree) ?_ ?_ e member
  · intro _ e present atom
    exact Expr.nullFree_of_atom present atom
  · intro _ _ _ _ each
    exact Expr.nullFree_list_iff.2 each

/-- No more lists are nested in one another than allowed. -/
theorem depth_le_of_mem_program {source : Bytes} {program : List Expr} {e : Expr}
    (accepted : (read source).program = .ok program) (member : e ∈ program) :
    e.depth ≤ maxDepth := by
  obtain ⟨-, rfl⟩ := program_eq_ok.1 accepted
  -- inside `level` lists there is room for the rest of the limit
  have bounded := (readsForms_read source).forms_have
    (P := fun level e => level ≤ maxDepth → level + e.depth ≤ maxDepth) ?_ ?_ e member
  · simpa using bounded (Nat.zero_le _)
  · intro level e _ atom inside
    cases e with
    | list => contradiction
    | nothing | number | string | boolean | symbol => exact inside
  · intro level loc elements room each _
    have bounded : Expr.depthAll elements ≤ maxDepth - (level + 1) := by
      refine Expr.depthAll_le_iff.2 fun e member => ?_
      have := each e member room
      omega
    rw [Expr.depth]
    omega

end Sketch
