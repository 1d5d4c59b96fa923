import Sketch.Proofs.Eval.Arguments
import Sketch.Proofs.Eval.Values
import Sketch.Proofs.Expr.Same

/-! Equality of values. Each value is compared with the first one only, and that is as good as
comparing every two of them by their structure, so their order does not matter. -/
namespace Sketch

/-- The values at every two places are the same. -/
def AllSame (values : List Expr) : Prop :=
  ∀ (i j : Nat) (v w : Expr), i ≠ j → values[i]? = some v → values[j]? = some w → v.same w

/-- A call of the equality below the depth limit, with several arguments that evaluate, one after
another, to these numbers, strings and booleans. -/
inductive Equates (tracing : Bool) (level : Int) (m : Machine) (values : List Expr) :
    Expr → Prop where
  | call {loc headLoc : Int} {args : List Expr} {last : Machine} : level < maxDepth →
    2 ≤ args.length →
    Valued (eval tracing (level + 1)) args values ((Deed.start level
      (.list loc (.symbol headLoc (bytes "=") :: args))).replay tracing m) last →
    (∀ v ∈ values, v.kind.isPlain) →
    Equates tracing level m values (.list loc (.symbol headLoc (bytes "=") :: args))

theorem allSame_iff_pairwise (values : List Expr) :
    AllSame values ↔ values.Pairwise fun v w => v.same w := by
  rw [List.pairwise_iff_getElem]
  constructor
  · intro same i j inside inside' less
    exact same i j _ _ less.ne (List.getElem?_eq_getElem inside) (List.getElem?_eq_getElem inside')
  · intro pairs i j v w differ first second
    obtain ⟨inside, rfl⟩ := List.getElem?_eq_some_iff.1 first
    obtain ⟨inside', rfl⟩ := List.getElem?_eq_some_iff.1 second
    rcases Nat.lt_or_gt_of_ne differ with less | more
    · exact pairs i j inside inside' less
    · exact Expr.same_symm _ _ (pairs j i inside' inside more)

/-- Neither the order nor the locations of values matter. -/
theorem allSame_congr {values values' : List Expr}
    (shuffled : (values'.map Expr.bare).Perm (values.map Expr.bare)) :
    AllSame values' ↔ AllSame values := by
  have bare (values : List Expr) :
      AllSame values ↔ (values.map Expr.bare).Pairwise fun v w => v.same w := by
    simp only [allSame_iff_pairwise, List.pairwise_map, Expr.same_bare]
  rw [bare values, bare values']
  exact shuffled.pairwise_iff fun same => Expr.same_symm _ _ same

/-- Values that are the same as the first one are the same as each other. -/
theorem allSame_cons_iff (first : Expr) (others : List Expr) :
    AllSame (first :: others) ↔ others.all (·.same first) := by
  rw [allSame_iff_pairwise, List.pairwise_cons, List.all_eq_true]
  constructor
  · rintro ⟨same, -⟩ v member
    exact Expr.same_symm _ _ (same v member)
  · intro same
    have back (v : Expr) (member : v ∈ others) : first.same v :=
      Expr.same_symm _ _ (same v member)
    refine ⟨back, List.pairwise_of_forall_mem_list ?_⟩
    intro v member w member'
    exact Expr.same_trans _ _ _ (same v member) (back w member')

theorem Expr.equals_eq_same (v : Expr) {first : Expr} (plain : first.kind.isPlain) :
    v.equals first = v.same first := by
  cases first with
  | number | string | boolean => cases v <;> rfl
  | nothing | symbol | list => contradiction

/-- Takes a value; to have none is an error. -/
def comparandOf (index : Nat) (arg : Expr) : Outcome → Except Halt Expr
  | .ok .nothing => .error (.error ⟨.equalityOfNothing index, arg.loc⟩)
  | outcome => outcome

theorem comparandOf_ok (index : Nat) (arg : Expr) {value : Expr} (plain : value.kind.isPlain) :
    comparandOf index arg (.ok value) = .ok value := by
  cases value with
  | nothing => contradiction
  | number | string | boolean | symbol | list => rfl

theorem Taken.comparands {ev : Evaluator} {args values : List Expr} {m last : Machine} {index : Nat}
    (taken : Taken ev (fun _ _ outcome => outcome) index args values m last)
    (plain : ∀ v ∈ values, v.kind.isPlain) (index' : Nat) :
    Taken ev comparandOf index' args values m last := by
  induction taken generalizing index' with
  | nil => exact .nil
  | cons ended took _ ih =>
    obtain ⟨one, rest⟩ := List.forall_mem_cons.1 plain
    rw [took] at ended
    exact .cons ended (comparandOf_ok _ _ one) (ih rest (index' + 1))

namespace Course

theorem comparand_eq_taken (arg : Expr) (index : Nat) :
    comparand (arg, index) = taken (comparandOf index arg) arg := by
  refine congrArg (ask arg) (funext fun outcome => ?_)
  rcases outcome with halt | value
  · rfl
  · cases value <;> rfl

theorem Asks.equality {ev : Evaluator} {arg first : Expr} {rest others : List Expr}
    {m last : Machine} (taken : Taken ev comparandOf 0 (arg :: rest) (first :: others) m last)
    (plain : first.kind.isPlain) :
    (Course.equality (arg :: rest)).Asks ev m (arg :: rest) (.ok (others.all (·.same first)))
      last := by
  have same : others.all (·.equals first) = others.all (·.same first) := by
    simp only [Expr.equals_eq_same _ plain]
  rw [Course.equality, mapM_eq_takenAll comparand_eq_taken]
  refine taken.asks.conclude ?_
  rw [← same]
  cases first with
  | number | string | boolean => exact .done
  | nothing | symbol | list => contradiction

end Course

/-- Values are compared with the first of them. -/
theorem Equates.evalTop_eq {tracing : Bool} {level : Int} {m : Machine} {values : List Expr}
    {list : Expr} (equates : Equates tracing level m values list) :
    ∃ first others, values = first :: others ∧
      (evalTop tracing level list m).1 = .ok (.boolean noLoc (others.all (·.same first))) := by
  obtain ⟨below, several, valued, plain⟩ := equates
  have taken := valued.comparands plain 0
  cases taken with
  | nil => contradiction
  | cons ended took taken =>
    have asks := (Course.Asks.equality (.cons ended took taken) (plain _ List.mem_cons_self)).map
      (Expr.boolean noLoc)
    have only := onlyEvaluates_of_asks below .equality nofun (decide_eq_true several) asks
    exact ⟨_, _, rfl, congrArg Prod.fst only.result⟩

/-- Below the depth limit, the equality of several numbers, strings and booleans tells whether every
two of them are the same. It depends neither on their order nor on anything else about the call. -/
theorem equality_compares_every_two {tracing : Bool} {level : Int} {m : Machine}
    {values : List Expr} {list : Expr} (equates : Equates tracing level m values list) :
    (∃ truth, (evalTop tracing level list m).1 = .ok (.boolean noLoc truth) ∧
      (truth ↔ AllSame values)) ∧
    ∀ tracing' level' m' values' list', Equates tracing' level' m' values' list' →
      (values'.map Expr.bare).Perm (values.map Expr.bare) →
      (evalTop tracing' level' list' m').1 = (evalTop tracing level list m).1 := by
  obtain ⟨first, others, rfl, result⟩ := equates.evalTop_eq
  refine ⟨⟨_, result, (allSame_cons_iff first others).symm⟩, ?_⟩
  intro tracing' level' m' values' list' equates' shuffled
  obtain ⟨first', others', rfl, result'⟩ := equates'.evalTop_eq
  have alike : others'.all (·.same first') = others.all (·.same first) := by
    rw [Bool.eq_iff_iff, ← allSame_cons_iff, ← allSame_cons_iff]
    exact allSame_congr shuffled
  rw [result, result', alike]

/-- With an undefined number for `x` and the negative zero for `z`, `(= x x)` is false, while
`(= 0 z)` and `(= z 0)` are true. -/
theorem equality_compares_every_two_zeros :
    let x := bytes "x"
    let z := bytes "z"
    let undefined := Expr.number noLoc ((0 : Float) / 0)
    let m : Machine :=
      { scopes := [(Frame.empty.set x undefined).set z (.number noLoc (-0.0))] }
    let equal (args : List Expr) := Expr.list 0 (.symbol 1 (bytes "=") :: args)
    let self := equal [.symbol 3 x, .symbol 5 x]
    let zeros := equal [.number 3 0, .symbol 5 z]
    let swapped := equal [.symbol 3 z, .number 5 0]
    Equates false 0 m [undefined, undefined] self ∧
      Equates false 0 m [.number 3 0, .number noLoc (-0.0)] zeros ∧
      Equates false 0 m [.number noLoc (-0.0), .number 5 0] swapped ∧
      (evalTop false 0 self m).1 = .ok (.boolean noLoc false) ∧
      (evalTop false 0 zeros m).1 = .ok (.boolean noLoc true) ∧
      (evalTop false 0 swapped m).1 = .ok (.boolean noLoc true) := by
  intro x z undefined m equal self zeros swapped
  have selfEquates : Equates false 0 m [undefined, undefined] self :=
    .call (by decide) (by decide) (.cons rfl rfl (.cons rfl rfl .nil)) (by decide)
  have zerosEquate : Equates false 0 m [.number 3 0, .number noLoc (-0.0)] zeros :=
    .call (by decide) (by decide) (.cons rfl rfl (.cons rfl rfl .nil)) (by decide)
  have swappedEquate : Equates false 0 m [.number noLoc (-0.0), .number 5 0] swapped :=
    .call (by decide) (by decide) (.cons rfl rfl (.cons rfl rfl .nil)) (by decide)
  have differ : ¬AllSame [undefined, undefined] := fun same =>
    absurd (same 0 1 undefined undefined nofun rfl rfl) (by decide)
  have same : AllSame [.number 3 0, .number noLoc (-0.0)] := (allSame_cons_iff _ _).2 (by decide)
  obtain ⟨⟨truth, selfResult, selfTruth⟩, -⟩ := equality_compares_every_two selfEquates
  obtain ⟨⟨truth', zerosResult, zerosTruth⟩, shuffled⟩ := equality_compares_every_two zerosEquate
  have isFalse : truth = false := Bool.eq_false_iff.2 fun holds => differ (selfTruth.1 holds)
  have isTrue : truth' = true := zerosTruth.2 same
  rw [isFalse] at selfResult
  rw [isTrue] at zerosResult
  have swappedResult := shuffled _ _ _ _ _ swappedEquate (.swap ..)
  exact ⟨selfEquates, zerosEquate, swappedEquate, selfResult, zerosResult,
    swappedResult.trans zerosResult⟩

end Sketch
