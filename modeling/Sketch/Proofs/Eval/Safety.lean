import Sketch.Proofs.Eval.Halting
import Sketch.Proofs.Source.Trees

/-! What was read can be run safely. Nothing is missing in it, so no evaluation gets stuck; and the
limit on nesting that it was read with is the one it is evaluated with, so it is never too deep. -/
namespace Sketch

theorem evalTop_ne_stuck {e : Expr} (clean : e.NullFree) (tracing : Bool) (level : Int)
    (m : Machine) : (evalTop tracing level e m).1 ≠ .error .stuck := by
  intro halted
  have blamed : Blame e.nodes (fun _ => True) .stuck :=
    blame_of_evalTop (fun _ => trivial) (.inl trivial) halted
  cases blamed with
  | stuck missing => exact clean _ missing rfl

/-- An evaluation is stuck on a missing operand, on too few arguments and on too few numbers. Where
nothing is missing it never is, whatever the scopes hold; in what was read nothing is missing. -/
theorem never_stuck :
    (∀ (tracing : Bool) (level : Int) (e : Expr) (m : Machine), e.NullFree →
      (evalTop tracing level e m).1 ≠ .error .stuck) ∧
    (∀ (name : Bytes) (builtin : Builtin), Builtin.ofName? name = some builtin → name ≠ []) ∧
    (∀ (source : Bytes) (program : List Expr), (read source).program = .ok program →
      ∀ e ∈ program, e.NullFree) ∧
    (∀ (tracing : Bool) (source : Bytes) (m : Machine),
      .error .stuck ∉ (execute tracing source m).1.outcomes) ∧
    ∀ (tracing : Bool) (level : Int) (m : Machine),
      (evalTop tracing level .nothing m).1 = .error .stuck := by
  refine ⟨fun tracing level e m clean => evalTop_ne_stuck clean tracing level m, ?_, ?_, ?_, ?_⟩
  · rintro name builtin named rfl
    cases named
  · intro source program accepted e member
    exact nullFree_of_mem_program accepted member
  · intro tracing source m member
    obtain ⟨program, accepted, among⟩ := mem_outcomes_execute member
    obtain ⟨e, found, n, halted⟩ := mem_outcomes_run among
    exact evalTop_ne_stuck (nullFree_of_mem_program accepted found) tracing 0 n halted
  · intro tracing level m
    refine evalTop_eq_error.2 ⟨m, ?_⟩
    rw [eval, evalWithin]
    rfl

/-- Comparing what has no value with a symbol that is bound to nothing is an error. -/
theorem never_stuck_on_nothing :
    let m : Machine := { scopes := [Frame.empty.set (bytes "x") .nothing] }
    -- (= (noFill) x)
    let e := Expr.list 0 [.symbol 1 (bytes "="), .list 3 [.symbol 4 (bytes "noFill")],
      .symbol 12 (bytes "x")]
    e.NullFree ∧ (evalTop true 0 e m).1 ≠ .error .stuck ∧
      (evalTop true 0 e m).1 = .error (.error ⟨.equalityOfNothing 0, 3⟩) := by
  intro m e
  have clean : e.NullFree := by decide
  exact ⟨clean, never_stuck.1 true 0 e m clean, rfl⟩

theorem Fault.eq_tooDeep {f : Fault} (same : f.message = bytes "Maximum nesting depth exceeded") :
    f = .tooDeep := by
  -- no other message starts with these two letters
  have start : f.message.take 2 = bytes "Ma" := by
    rw [same]
    decide
  cases f with
  | tooDeep => rfl
  | wrongArity builtin | notNumber builtin _ =>
    cases builtin with
    | arithmetic op => cases op <;> cases start
    | comparison rel => cases rel <;> cases start
    | setInk ink | clearInk ink => cases ink <;> cases start
    | reserved name => cases name <;> cases start
    | equality | choice | binding | assignment | loop | rgb | rect | line => cases start
  | notString ink _ => cases ink <;> cases start
  | missingBranch taken => cases taken <;> cases start
  | equalityOfNothing index => cases index <;> cases start
  | undefinedSymbol | emptyList | notCallable | unimplemented | divisionByZero | incomparable
  | equalityOf | missingCondition | badCondition | bindingsNotList | malformedBinding
  | missingBinding | unboundPlace | missingValue | tooManyRounds => cases start

theorem message_ne_of_evalTop {tracing : Bool} {level : Int} {e : Expr} {m : Machine}
    {err : EvalError} (fits : level + e.depth ≤ maxDepth)
    (failed : (evalTop tracing level e m).1 = .error (.error err)) :
    err.message ≠ bytes "Maximum nesting depth exceeded" := by
  intro same
  have blamed : Blame e.nodes (· ≠ .tooDeep) (.error err) :=
    blame_of_evalTop (fun shallow => shallow) (.inr fits) failed
  cases blamed with
  | error allowed _ => exact allowed (Fault.eq_tooDeep same)

/-- Sums nested in one another, the innermost one of a single expression. -/
def nestedSum (locs : List Int) (core : Expr) : Expr :=
  locs.foldr (fun loc inner => .list loc [.symbol loc (bytes "+"), inner]) core

theorem depth_nestedSum (locs : List Int) (core : Expr) :
    (nestedSum locs core).depth = locs.length + core.depth := by
  induction locs with
  | nil => simp [nestedSum]
  | cons loc rest ih =>
    have inner : (nestedSum (loc :: rest) core).depth = (nestedSum rest core).depth + 1 := by
      simp [nestedSum, Expr.depth, Expr.depthAll]
    rw [inner, ih, List.length_cons]
    omega

theorem call_sum_of_error {ev : Evaluator} {loc headLoc : Int} {arg : Expr} {m n : Machine}
    {halt : Halt} (failed : ev arg m = .error halt n) :
    call ev loc [.symbol headLoc (bytes "+"), arg] m = .error halt n := by
  have named : Builtin.ofName? (bytes "+") = some (.arithmetic .add) :=
    Builtin.ofName?_name (.arithmetic .add)
  have summed : Form.arithmetic ev .add [arg] m = .error halt n := by
    simp only [Form.arithmetic, Form.operate, Form.numberOf, bind, EStateM.bind, failed]
  simp only [call, named]
  exact summed

/-- Tracing adds to the log only, so what fails whatever the log still fails. -/
theorem traced_of_error {body : EvalM Expr} {e : EvalError} {m : Machine}
    (failed : ∀ m', m'.scopes = m.scopes → ∃ n, body m' = .error (.error e) n) (tracing : Bool)
    (level : Int) (list : Expr) : ∃ n, traced tracing level list body m = .error (.error e) n := by
  cases tracing with
  | false => exact failed m rfl
  | true =>
    obtain ⟨n, ended⟩ := failed (m.record (.enter level list)) rfl
    refine ⟨n.record (.leave level (.error e)), ?_⟩
    simp only [traced, ↓reduceIte, ended]

/-- Behind as many sums as there is room for, any list is one too many. -/
theorem evalWithin_nestedSum (tracing : Bool) (level : Int) (locs : List Int) (loc : Int)
    (elements : List Expr) (m : Machine) :
    ∃ n, evalWithin tracing locs.length level (nestedSum locs (.list loc elements)) m =
      .error (.error ⟨.tooDeep, loc⟩) n := by
  induction locs generalizing level m with
  | nil => exact traced_of_error (fun m _ => ⟨m, rfl⟩) tracing level _
  | cons outer rest ih =>
    refine traced_of_error (fun m _ => ?_) tracing level _
    obtain ⟨n, failed⟩ := ih (level + 1) m
    exact ⟨n, call_sum_of_error failed⟩

/-- Reading and evaluating agree on how deep lists may be nested. Up to there the level of an
evaluation does not matter and the limit is never met, so a program that was read never meets it;
one list more meets it at that list. -/
theorem depth_limits_agree :
    (∀ (e : Expr) (m : Machine) (l₁ l₂ : Int), l₁ + e.depth ≤ maxDepth → l₂ + e.depth ≤ maxDepth →
      evalTop false l₁ e m = evalTop false l₂ e m) ∧
    (∀ (tracing : Bool) (level : Int) (e : Expr) (m : Machine) (err : EvalError),
      level + e.depth ≤ maxDepth → (evalTop tracing level e m).1 = .error (.error err) →
      err.message ≠ bytes "Maximum nesting depth exceeded") ∧
    (∀ (source : Bytes) (program : List Expr), (read source).program = .ok program →
      (∀ e ∈ program, e.depth ≤ maxDepth) ∧
      ∀ (tracing : Bool) (m : Machine) (err : EvalError),
        .error (.error err) ∈ (run tracing program m).1 →
        err.message ≠ bytes "Maximum nesting depth exceeded") ∧
    ∀ (tracing : Bool) (level : Int) (locs : List Int) (loc : Int) (m : Machine),
      level + locs.length = maxDepth →
      level + (nestedSum locs (.list loc [])).depth = maxDepth + 1 ∧
      (evalTop tracing level (nestedSum locs (.list loc [])) m).1 =
        .error (.error ⟨.tooDeep, loc⟩) := by
  refine ⟨?_, fun _ _ _ _ _ => message_ne_of_evalTop, ?_, ?_⟩
  · intro e m l₁ l₂ fits₁ fits₂
    have same : eval false l₁ e = eval false l₂ e :=
      evalWithin_eq_of_depth_le (by omega) (by omega) l₁ l₂
    rw [evalTop, evalTop, same]
  · intro source program accepted
    have shallow : ∀ e ∈ program, e.depth ≤ maxDepth := fun e => depth_le_of_mem_program accepted
    refine ⟨shallow, fun tracing m err member => ?_⟩
    obtain ⟨e, found, n, failed⟩ := mem_outcomes_run member
    have fits := shallow e found
    exact message_ne_of_evalTop (by omega) failed
  · intro tracing level locs loc m full
    refine ⟨?_, evalTop_eq_error.2 ?_⟩
    · rw [depth_nestedSum, Expr.depth, Expr.depthAll]
      omega
    · have room : (maxDepth - level).toNat = locs.length := by omega
      rw [eval, room]
      exact evalWithin_nestedSum tracing level locs loc [] m

/-- The list of bindings and the binding in it add to the depth, but not to the level. -/
theorem depth_limits_agree_binding :
    let m : Machine := { scopes := [Frame.empty] }
    -- (let ((x "a")) x)
    let e := Expr.list 0 [.symbol 1 (bytes "let"),
      .list 5 [.list 6 [.symbol 7 (bytes "x"), .string 9 (bytes "a")]], .symbol 15 (bytes "x")]
    e.depth = 3 ∧ evalTop false 0 e m = evalTop false 997 e m ∧
      (evalTop false 997 e m).1 = .ok (.string 9 (bytes "a")) := by
  intro m e
  have deep : e.depth = 3 := by decide
  refine ⟨deep, depth_limits_agree.1 e m 0 997 ?_ ?_, rfl⟩
  · rw [deep]; decide
  · rw [deep]; decide

end Sketch
