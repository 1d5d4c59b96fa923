import Sketch.Proofs.Eval.Deeds
import Sketch.Proofs.Eval.Effects

/-! Assignments. The scope to assign in is chosen before the value is evaluated, and it is still the
right one afterwards: whatever the value does to the scopes around it, it neither adds a name to
them nor takes one away. -/
namespace Sketch

namespace Scopes

/-- One of the scopes holds a name, and none further in does. -/
def Innermost (scopes : Scopes) (name : Bytes) (index : Nat) : Prop :=
  (scopes.at? index name).isSome ∧ ∀ inner < index, scopes.at? inner name = none

theorem owner?_eq_none_iff {scopes : Scopes} {name : Bytes} :
    owner? scopes name = none ↔ ∀ index, scopes.at? index name = none := by
  induction scopes with
  | nil => simp [owner?, at?]
  | cons f rest ih =>
    rw [owner?_cons]
    constructor
    · intro missing index
      split at missing
      · cases missing
      · next absent =>
        cases index with
        | zero => simpa [Frame.has] using absent
        | succ index => exact ih.1 (Option.map_eq_none_iff.1 missing) index
    · intro absent
      have first : ¬ f.has name := by simp [Frame.has, ← at?_cons_zero f rest, absent 0]
      rw [if_neg first, ih.2 fun index => absent (index + 1)]
      rfl

theorem innermost_of_owner? {scopes : Scopes} {name : Bytes} {index : Nat}
    (chosen : owner? scopes name = some index) : Innermost scopes name index := by
  induction scopes generalizing index with
  | nil => simp [owner?] at chosen
  | cons f rest ih =>
    rw [owner?_cons] at chosen
    split at chosen
    · next held =>
      cases chosen
      exact ⟨held, by simp⟩
    · next absent =>
      obtain ⟨outer, found, rfl⟩ := Option.map_eq_some_iff.1 chosen
      obtain ⟨held, hidden⟩ := ih found
      refine ⟨held, fun inner less => ?_⟩
      cases inner with
      | zero => simpa [Frame.has] using absent
      | succ inner => exact hidden inner (Nat.lt_of_succ_lt_succ less)

/-- The owner of a name is the innermost scope that holds it. -/
theorem owner?_eq_some_iff {scopes : Scopes} {name : Bytes} {index : Nat} :
    owner? scopes name = some index ↔ Innermost scopes name index := by
  refine ⟨innermost_of_owner?, fun ⟨held, hidden⟩ => ?_⟩
  cases chosen : owner? scopes name with
  | none => simp [owner?_eq_none_iff.1 chosen index] at held
  | some other =>
    -- each of the two holds the name, so neither is further in than the other
    obtain ⟨held', hidden'⟩ := innermost_of_owner? chosen
    rcases Nat.lt_trichotomy other index with less | rfl | more
    · simp [hidden other less] at held'
    · rfl
    · simp [hidden' index more] at held

/-- The scopes `now` are the scopes `before`, but for one name that is bound to a value in one of
them, which is the innermost one to hold it. -/
structure Assigned (name : Bytes) (value : Expr) (index : Nat) (before now : Scopes) : Prop where
  length : now.length = before.length
  innermost : now.Innermost name index
  bound : now.at? index name = some value
  others : ∀ i x, ¬ (i = index ∧ x = name) → now.at? i x = before.at? i x

theorem assigned_setAt {scopes : Scopes} {name : Bytes} {index : Nat}
    (chosen : owner? scopes name = some index) (value : Expr) :
    Assigned name value index scopes (setAt scopes index name value) := by
  have owned : owner? (setAt scopes index name value) name = some index :=
    (owner?_congr (names_setAt_owner chosen value) name).trans chosen
  refine ⟨length_setAt .., innermost_of_owner? owned, ?_,
    fun i x elsewhere => at?_setAt_of_ne elsewhere value⟩
  rw [← find?_eq_at?_owner owned, find?_setAt_owner chosen, if_pos rfl]

theorem Assigned.lookup_eq {name : Bytes} {value : Expr} {index : Nat} {before now : Scopes}
    (assigned : Assigned name value index before now) : lookup now name = value := by
  rw [lookup, find?_eq_at?_owner (owner?_eq_some_iff.2 assigned.innermost), assigned.bound]
  rfl

end Scopes

/-- A symbol that is bound has the value shown. -/
theorem evalTop_symbol {name : Bytes} {value : Expr} {m : Machine}
    (plain : name ≠ bytes "true" ∧ name ≠ bytes "false") (shown : m.scopes.lookup name = value)
    (present : value ≠ .nothing) (tracing : Bool) (level loc : Int) :
    evalTop tracing level (.symbol loc name) m = (.ok value, m) := by
  have found : lookup name m = .ok value m := congrArg (EStateM.Result.ok · m) shown
  have evaluated : evalSymbol loc name m = .ok value m := by
    rw [evalSymbol, if_neg plain.1, if_neg plain.2, bind_of_ok found]
    cases value <;> first | rfl | exact absurd rfl present
  rw [evalTop, eval, evalWithin.eq_def]
  simp only [evaluated]

section

variable {ev : Evaluator} {place : Int} {name : Bytes} {e : Expr} {m n : Machine}

theorem assignment_symbol (ev : Evaluator) (place : Int) (name : Bytes) (e : Expr) :
    Form.assignment ev (.symbol place name) e = (do
      let some index ← owner? name | fail .unboundPlace place
      assignIn ev index name e) := by
  rw [Form.assignment, Form.placeName?, pure_bind]
  rfl

theorem assignment_of_unbound (unbound : Scopes.owner? m.scopes name = none) :
    Form.assignment ev (.symbol place name) e m =
      .error (.error ⟨.unboundPlace, place⟩) m := by
  rw [assignment_symbol, owner?_bind, unbound]
  rfl

theorem assignment_of_owner {index : Nat} (chosen : Scopes.owner? m.scopes name = some index) :
    Form.assignment ev (.symbol place name) e m = assignIn ev index name e m := by
  rw [assignment_symbol, owner?_bind, chosen]

theorem assignIn_of_halt {index : Nat} {halt : Halt} (failed : ev e m = .error halt n) :
    assignIn ev index name e m = .error halt n :=
  bind_of_error failed

theorem assignIn_of_nothing {index : Nat} (evaluated : ev e m = .ok .nothing n) :
    assignIn ev index name e m = .error (.error ⟨.missingValue, e.loc⟩) n :=
  bind_of_ok evaluated

theorem assignIn_of_value {index : Nat} {value : Expr} (evaluated : ev e m = .ok value n)
    (present : value ≠ .nothing) : assignIn ev index name e m =
      .ok value { n with scopes := n.scopes.setAt index name value } := by
  rw [assignIn, bind_of_ok evaluated]
  cases value <;> first | rfl | exact absurd rfl present

end

/-- An assignment that does not find its name ends before its value is evaluated. -/
theorem Course.deeds_assignment_of_unbound (inner : Expr → Machine → List Deed) (ev : Evaluator)
    (place : Int) {name : Bytes} (e : Expr) {m : Machine}
    (unbound : Scopes.owner? m.scopes name = none) :
    (Course.assignment (.symbol place name) e).deeds inner ev m = [] := by
  rw [Course.assignment, Course.placeName?, pure_bind]
  show Course.deeds inner ev (pure (m.scopes.owner? name) >>= _) m = []
  rw [unbound]
  rfl

/-- An assignment of a name that no scope holds fails at the name, before its value is evaluated.
Otherwise it does what evaluating its value does, and fails if that fails or gives nothing. What it
gives is bound in the innermost scope that holds the name, which is the same one before and after,
however often the evaluation assigns the name itself or binds it in scopes of its own; everything
else stays as it was left, and the name has this value from now on. -/
theorem assignment_updates_owner (tracing : Bool) {level : Int} (below : level < maxDepth)
    (loc headLoc place : Int) {name : Bytes}
    (plain : name ≠ bytes "true" ∧ name ≠ bytes "false") (e : Expr) (m : Machine) :
    let list := Expr.list loc [.symbol headLoc (bytes "set"), .symbol place name, e]
    let start := (Deed.start level list).replay tracing m
    let inner := evalTop tracing (level + 1) e start
    let result := evalTop tracing level list m
    let ends (outcome : Outcome) (last : Machine) : Outcome × Machine :=
      (outcome, (Deed.finish level list outcome).replay tracing last)
    let failed (fault : Fault) (loc : Int) : Outcome := .error (.error ⟨fault, loc⟩)
    ((∀ index, m.scopes.at? index name = none) →
      result = ends (failed .unboundPlace place) start ∧
      deeds tracing level list m = [.start level list, .finish level list result.1]) ∧
    ∀ index, m.scopes.Innermost name index → inner.2.scopes.Innermost name index ∧
      (∀ halt, inner.1 = .error halt → result = ends (.error halt) inner.2) ∧
      (inner.1 = .ok .nothing → result = ends (failed .missingValue e.loc) inner.2) ∧
      ∀ value, value ≠ .nothing → inner.1 = .ok value →
        result = ends (.ok value)
          { inner.2 with scopes := inner.2.scopes.setAt index name value } ∧
        Scopes.Assigned name value index inner.2.scopes result.2.scopes ∧
        ∀ tracing level loc,
          evalTop tracing level (.symbol loc name) result.2 = (.ok value, result.2) := by
  intro list start inner result ends failed
  have started : start.scopes = m.scopes := Deed.scopes_replay_start tracing level list m
  have settled {outcome : Outcome} {last : Machine}
      (assigned : settle (Form.assignment (eval tracing (level + 1)) (.symbol place name) e) start =
        (outcome, last)) : result = ends outcome last :=
    evalTop_call below .assignment nofun rfl assigned
  refine ⟨fun absent => ?_, fun index innermost => ?_⟩
  · have unbound : Scopes.owner? start.scopes name = none :=
      Scopes.owner?_eq_none_iff.2 (started ▸ absent)
    have told : deeds tracing level list m =
        .start level list :: (Course.assignment (.symbol place name) e).deeds
          (deeds tracing (level + 1)) (eval tracing (level + 1)) start ++
          [.finish level list result.1] :=
      deeds_call below .assignment nofun rfl loc headLoc m
    refine ⟨settled (by rw [settle, assignment_of_unbound unbound]), ?_⟩
    rw [told, Course.deeds_assignment_of_unbound _ _ _ _ unbound]
    rfl
  have chosen : Scopes.owner? start.scopes name = some index :=
    Scopes.owner?_eq_some_iff.2 (started ▸ innermost)
  have same : SameNames start inner.2 := lasting_sameNames.evalTop tracing (level + 1) e start
  have still : Scopes.owner? inner.2.scopes name = some index :=
    (Scopes.owner?_congr same name).trans chosen
  have inner_eq : inner = settle (eval tracing (level + 1) e) start :=
    evalTop_eq_settle tracing (level + 1) e start
  refine ⟨Scopes.innermost_of_owner? still, fun halt halted => settled ?_,
    fun missing => settled ?_, fun value present gave => ?_⟩
  · rw [inner_eq] at halted ⊢
    rw [settle, assignment_of_owner chosen, assignIn_of_halt (eq_error_of_settle halted)]
  · rw [inner_eq] at missing ⊢
    rw [settle, assignment_of_owner chosen, assignIn_of_nothing (eq_ok_of_settle missing)]
  · have assigned : result = ends (.ok value)
        { inner.2 with scopes := inner.2.scopes.setAt index name value } := by
      refine settled ?_
      rw [inner_eq] at gave ⊢
      rw [settle, assignment_of_owner chosen, assignIn_of_value (eq_ok_of_settle gave) present]
    have scopes : result.2.scopes = inner.2.scopes.setAt index name value := by
      rw [assigned]
      exact Deed.scopes_replay_finish tracing level list (.ok value) _
    have changed : Scopes.Assigned name value index inner.2.scopes result.2.scopes := by
      rw [scopes]
      exact Scopes.assigned_setAt still value
    exact ⟨assigned, changed, evalTop_symbol plain changed.lookup_eq present⟩

/-- `(set x (if (set x "first") (let ((x "own")) (set x "lost") "last") "no"))` inside a scope that
does not hold `x`: the value assigns `x` around it, and once more in a scope of its own. -/
theorem assignment_updates_owner_twice :
    let x := bytes "x"
    let text (value : String) := Expr.string noLoc (bytes value)
    let set (e : Expr) := Expr.list 0 [.symbol 1 (bytes "set"), .symbol 5 x, e]
    let own := Expr.list 0 [.symbol 1 (bytes "let"), .list 5 [.list 6 [.symbol 7 x, text "own"]],
      set (text "lost"), text "last"]
    let e := Expr.list 0 [.symbol 1 (bytes "if"), set (text "first"), own, text "no"]
    let holds (value : String) := Frame.empty.set x (text value)
    let chain (value : String) : Machine :=
      { scopes := [Frame.empty.set (bytes "y") (text "y"), holds value, holds "hidden"] }
    (0 : Int) < maxDepth ∧ x ≠ bytes "true" ∧ x ≠ bytes "false" ∧
      evalTop false 1 e (chain "old") = (.ok (text "last"), chain "first") ∧
      evalTop false 0 (set e) (chain "old") = (.ok (text "last"), chain "last") ∧
      evalTop false 0 (.symbol 0 x) (chain "last") = (.ok (text "last"), chain "last") := by
  intro x text set own e holds chain
  have below : (0 : Int) < maxDepth := by decide
  have plain : x ≠ bytes "true" ∧ x ≠ bytes "false" := by decide
  have inner : evalTop false 1 e (chain "old") = (.ok (text "last"), chain "first") := rfl
  have innermost : (chain "old").scopes.Innermost x 1 := by
    refine ⟨rfl, fun index inner => ?_⟩
    cases Nat.lt_one_iff.1 inner
    rfl
  obtain ⟨-, owned⟩ := assignment_updates_owner false below 0 1 5 plain e (chain "old")
  obtain ⟨-, -, -, gives⟩ := owned 1 innermost
  obtain ⟨result, -, shown⟩ := gives (text "last") nofun (congrArg Prod.fst inner)
  have assigned : evalTop false 0 (set e) (chain "old") = (.ok (text "last"), chain "last") :=
    result
  have symbol := shown false 0 0
  rw [show evalTop false 0 _ (chain "old") = _ from assigned] at symbol
  exact ⟨below, plain.1, plain.2, inner, assigned, symbol⟩

end Sketch
