import Mathlib
import Sketch.Expr.Same
import Sketch.Proofs.Expr.Relocate

/-! Structural equality. It does not look at locations, and it compares lists element by element.
Since the equality of numbers is symmetric and transitive, so is the equality of expressions; both
are reflexive except where a number is undefined. What is known of the equality of doubles comes
only with the library as a whole, which is why the whole of it is imported here. -/
namespace Sketch.Expr

/-- No number in the expression is undefined. -/
def Defined (e : Expr) : Prop :=
  ∀ (loc : Int) (x : Float), .number loc x ∈ e.nodes → x.isNaN = false

/-- What two expressions are that are the same. -/
inductive Alike : Expr → Expr → Prop where
  | nothing : Alike .nothing .nothing
  | number {loc loc' : Int} {x y : Float} : x == y → Alike (.number loc x) (.number loc' y)
  | string {loc loc' : Int} {text : Bytes} : Alike (.string loc text) (.string loc' text)
  | boolean {loc loc' : Int} {value : Bool} : Alike (.boolean loc value) (.boolean loc' value)
  | symbol {loc loc' : Int} {name : Bytes} : Alike (.symbol loc name) (.symbol loc' name)
  | list {loc loc' : Int} {xs ys : List Expr} : sameAll xs ys → Alike (.list loc xs) (.list loc' ys)

theorem alike_of_same {a b : Expr} (equal : a.same b) : Alike a b := by
  cases a <;> cases b <;> try cases equal
  case nothing.nothing => exact .nothing
  case number.number => exact .number equal
  case string.string => cases eq_of_beq equal; exact .string
  case boolean.boolean => cases eq_of_beq equal; exact .boolean
  case symbol.symbol => cases eq_of_beq equal; exact .symbol
  case list.list => exact .list equal

mutual
theorem same_symm : ∀ a b : Expr, a.same b → b.same a
  | .nothing, b, equal | .string .., b, equal | .boolean .., b, equal | .symbol .., b, equal => by
    cases alike_of_same equal
    exact equal
  | .number .., b, equal => by
    cases alike_of_same equal with
    | number equal => exact BEq.symm equal
  | .list _ xs, b, equal => by
    cases alike_of_same equal with
    | list equal => exact sameAll_symm xs _ equal

theorem sameAll_symm : ∀ xs ys : List Expr, sameAll xs ys → sameAll ys xs
  | [], [], _ => rfl
  | x :: xs, y :: ys, equal => by
    rw [sameAll, Bool.and_eq_true] at equal ⊢
    exact ⟨same_symm x y equal.1, sameAll_symm xs ys equal.2⟩
end

mutual
theorem same_trans : ∀ a b c : Expr, a.same b → b.same c → a.same c
  | .nothing, b, c, first, second | .string .., b, c, first, second
  | .boolean .., b, c, first, second | .symbol .., b, c, first, second => by
    cases alike_of_same first
    cases alike_of_same second
    exact second
  | .number .., b, c, first, second => by
    cases alike_of_same first with
    | number first =>
      cases alike_of_same second with
      | number second => exact BEq.trans first second
  | .list _ xs, b, c, first, second => by
    cases alike_of_same first with
    | list first =>
      cases alike_of_same second with
      | list second => exact sameAll_trans xs _ _ first second

theorem sameAll_trans : ∀ xs ys zs : List Expr, sameAll xs ys → sameAll ys zs → sameAll xs zs
  | [], [], _, _, second => second
  | x :: xs, y :: ys, z :: zs, first, second => by
    rw [sameAll, Bool.and_eq_true] at first second ⊢
    exact ⟨same_trans x y z first.1 second.1, sameAll_trans xs ys zs first.2 second.2⟩
end

mutual
theorem same_relocate (f g : Int → Int) :
    ∀ a b : Expr, (a.relocate f).same (b.relocate g) = a.same b
  | .nothing, b | .number .., b | .string .., b | .boolean .., b | .symbol .., b => by
    cases b <;> rfl
  | .list _ xs, b => by
    cases b with
    | list _ ys => exact sameAll_relocateAll f g xs ys
    | nothing | number | string | boolean | symbol => rfl

theorem sameAll_relocateAll (f g : Int → Int) :
    ∀ xs ys : List Expr, sameAll (relocateAll f xs) (relocateAll g ys) = sameAll xs ys
  | [], [] | [], _ :: _ | _ :: _, [] => rfl
  | x :: xs, y :: ys => by
    rw [relocateAll, relocateAll, sameAll, sameAll, same_relocate f g x y,
      sameAll_relocateAll f g xs ys]
end

theorem same_bare (a b : Expr) : a.bare.same b.bare = a.same b := same_relocate _ _ a b

theorem same_comm (a b : Expr) : a.same b = b.same a :=
  Bool.eq_iff_iff.2 ⟨same_symm a b, same_symm b a⟩

theorem sameAll_iff_forall₂ {xs ys : List Expr} :
    sameAll xs ys ↔ List.Forall₂ (fun x y => x.same y) xs ys := by
  induction xs generalizing ys with
  | nil => cases ys <;> simp [sameAll]
  | cons x xs ih => cases ys <;> simp [sameAll, ih]

theorem same_list_iff {loc loc' : Int} {xs ys : List Expr} :
    (Expr.list loc xs).same (.list loc' ys) ↔ xs.length = ys.length ∧
      ∀ (i : Nat) (inside : i < xs.length) (inside' : i < ys.length), xs[i].same ys[i] :=
  sameAll_iff_forall₂.trans List.forall₂_iff_get

theorem nothing_same_iff {b : Expr} : Expr.nothing.same b ↔ b = .nothing := by
  cases b <;> simp [same]

theorem defined_list_iff {loc : Int} {elements : List Expr} :
    (Expr.list loc elements).Defined ↔ ∀ element ∈ elements, element.Defined := by
  constructor
  · intro defined element member loc x inner
    exact defined loc x (List.mem_cons_of_mem _ (nodes_subset_insideAll member inner))
  · intro each loc x member
    rcases List.mem_cons.1 member with same | inner
    · contradiction
    · obtain ⟨element, member, inner⟩ := mem_insideAll.1 inner
      exact each element member loc x inner

theorem defined_of_atom {e : Expr} (atom : e.kind ≠ .list) (other : e.kind ≠ .number) :
    e.Defined := by
  intro loc x member
  cases e with
  | list | number => contradiction
  | nothing | string | boolean | symbol => cases List.mem_singleton.1 member

theorem float_beq_self_iff {x : Float} : x == x ↔ x.isNaN = false := by
  rw [Float.beq_self_iff, Float.isNaN_eq_decide_eq_nan, decide_eq_false_iff_not]

mutual
theorem same_self_iff : ∀ e : Expr, e.same e ↔ e.Defined
  | .nothing | .string .. | .boolean .. | .symbol .. =>
    iff_of_true (by simp [same]) (defined_of_atom (by simp [kind]) (by simp [kind]))
  | .number loc x => by
    rw [same, float_beq_self_iff]
    constructor
    · intro defined loc' y member
      cases List.mem_singleton.1 member
      exact defined
    · exact fun defined => defined loc x (mem_nodes_self _)
  | .list _ elements => by rw [same, sameAll_self_iff elements, defined_list_iff]

theorem sameAll_self_iff : ∀ es : List Expr, sameAll es es ↔ ∀ e ∈ es, e.Defined
  | [] => by simp [sameAll]
  | e :: es => by
    rw [sameAll, Bool.and_eq_true, same_self_iff e, sameAll_self_iff es, List.forall_mem_cons]
end

end Sketch.Expr

namespace Sketch

/-- The equality of expressions is an equivalence except on undefined numbers. Locations do not
count, wherever in an expression they are. Lists are the same if they are as long as each other and
the same at every place, and what is missing is the same as nothing else. -/
theorem equality_compares_structure (a b c : Expr) :
    a.same b = b.same a ∧
    (a.same b → b.same c → a.same c) ∧
    (a.same a ↔ a.Defined) ∧
    (∀ a' b' : Expr, a'.bare = a.bare → b'.bare = b.bare → a'.same b' = a.same b) ∧
    (∀ (loc loc' : Int) (xs ys : List Expr),
      (Expr.list loc xs).same (.list loc' ys) ↔ xs.length = ys.length ∧
        ∀ (i : Nat) (inside : i < xs.length) (inside' : i < ys.length), xs[i].same ys[i]) ∧
    (Expr.nothing.same b ↔ b = .nothing) := by
  refine ⟨Expr.same_comm a b, Expr.same_trans a b c, Expr.same_self_iff a, ?_,
    fun _ _ _ _ => Expr.same_list_iff, Expr.nothing_same_iff⟩
  intro a' b' alike alike'
  rw [← Expr.same_bare a' b', alike, alike', Expr.same_bare]

/-- A list with nothing in it and with both zeros, and one with an undefined number. -/
theorem equality_compares_structure_zeros :
    let zeros (loc : Int) (x y : Float) :=
      Expr.list loc [.nothing, .list (loc + 1) [.number (loc + 2) x, .number (loc + 3) y]]
    let undefined := Expr.list 0 [.number 1 (0 / 0)]
    (zeros 0 0 (-0.0)).same (zeros 7 (-0.0) 0) ∧ (zeros 7 (-0.0) 0).same (zeros 9 0 0) ∧
      (zeros 0 0 (-0.0)).same (zeros 9 0 0) ∧
      (zeros 5 0 (-0.0)).bare = (zeros 0 0 (-0.0)).bare ∧
      (zeros 5 0 (-0.0)).same (zeros 7 (-0.0) 0) ∧
      ¬undefined.same undefined := by
  intro zeros undefined
  have first : (zeros 0 0 (-0.0)).same (zeros 7 (-0.0) 0) := by decide
  have second : (zeros 7 (-0.0) 0).same (zeros 9 0 0) := by decide
  have laws := equality_compares_structure (zeros 0 0 (-0.0)) (zeros 7 (-0.0) 0) (zeros 9 0 0)
  have moved : (zeros 5 0 (-0.0)).same (zeros 7 (-0.0) 0) = _ := laws.2.2.2.1 _ _ rfl rfl
  have reflexive := (equality_compares_structure undefined undefined undefined).2.2.1
  refine ⟨first, second, laws.2.1 first second, rfl, moved.trans first, fun self => ?_⟩
  have differs : ((0 : Float) / 0).isNaN = false :=
    reflexive.1 self 1 _ (List.mem_cons_of_mem _ (List.mem_singleton.2 rfl))
  exact absurd differs (by decide)

end Sketch
