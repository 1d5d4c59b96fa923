import Sketch.Proofs.Eval.Deeds

/-! Arguments evaluated one after another. A built-in that only wants to know what its arguments
come to takes something from the outcome of each in its turn, or halts there, and then the later
ones are not evaluated. All that such a call does is to evaluate these arguments. -/
namespace Sketch

/-- Expressions evaluated one after another, numbered from `index` on. Something is taken from the
outcome of each. -/
inductive Taken {α : Type} (ev : Evaluator) (take : Nat → Expr → Outcome → Except Halt α) :
    Nat → List Expr → List α → Machine → Machine → Prop where
  | nil {index : Nat} {m : Machine} : Taken ev take index [] [] m m
  | cons {index : Nat} {arg : Expr} {rest : List Expr} {value : α} {values : List α}
    {outcome : Outcome} {m n last : Machine} : settle (ev arg) m = (outcome, n) →
    take index arg outcome = .ok value → Taken ev take (index + 1) rest values n last →
    Taken ev take index (arg :: rest) (value :: values) m last

/-- Expressions evaluated one after another, up to the first one from whose outcome nothing can be
taken. -/
inductive Stopped {α : Type} (ev : Evaluator) (take : Nat → Expr → Outcome → Except Halt α)
    (index : Nat) (args : List Expr) (m : Machine) : List Expr → Halt → Machine → Prop where
  | intro {before later : List Expr} {arg : Expr} {values : List α} {outcome : Outcome}
    {halt : Halt} {n last : Machine} : Taken ev take index before values m n →
    args = before ++ arg :: later → settle (ev arg) n = (outcome, last) →
    take (index + before.length) arg outcome = .error halt →
    Stopped ev take index args m (before ++ [arg]) halt last

/-- Expressions evaluated one after another have these values. -/
def Valued (ev : Evaluator) (args values : List Expr) (m last : Machine) : Prop :=
  Taken ev (fun _ _ outcome => outcome) 1 args values m last

/-- What is done to evaluate expressions one after another. -/
def deedsAll (inner : Expr → Machine → List Deed) (ev : Evaluator) :
    List Expr → Machine → List Deed
  | [], _ => []
  | e :: rest, m => inner e m ++ deedsAll inner ev rest (settle (ev e) m).2

/-- How a list is evaluated that has these expressions evaluated, one after another, and does
nothing else. -/
structure OnlyEvaluates (tracing : Bool) (level : Int) (list : Expr) (m : Machine)
    (asked : List Expr) (outcome : Outcome) (last : Machine) : Prop where
  result : evalTop tracing level list m =
    (outcome, (Deed.finish level list outcome).replay tracing last)
  deeds : deeds tracing level list m = .start level list ::
    deedsAll (deeds tracing (level + 1)) (eval tracing (level + 1)) asked
      ((Deed.start level list).replay tracing m) ++ [.finish level list outcome]

section

variable {α : Type} {ev : Evaluator} {take : Nat → Expr → Outcome → Except Halt α} {index : Nat}
  {args : List Expr} {m n last : Machine}

theorem Taken.length_eq {values : List α} (taken : Taken ev take index args values m last) :
    values.length = args.length := by
  induction taken with
  | nil => rfl
  | cons _ _ _ ih => simp [ih]

/-- Something is taken from each outcome, or there is a first one that stops this. -/
theorem taken_or_stopped (ev : Evaluator) (take : Nat → Expr → Outcome → Except Halt α)
    (index : Nat) (args : List Expr) (m : Machine) :
    (∃ values last, Taken ev take index args values m last) ∨
      ∃ asked halt last, Stopped ev take index args m asked halt last := by
  induction args generalizing index m with
  | nil => exact .inl ⟨[], m, .nil⟩
  | cons arg rest ih =>
    rcases ended : settle (ev arg) m with ⟨outcome, n⟩
    cases took : take index arg outcome with
    | error halt => exact .inr ⟨_, halt, n, .intro .nil rfl ended took⟩
    | ok value =>
      rcases ih (index + 1) n with ⟨values, last, taken⟩ | ⟨asked, halt, last, stopped⟩
      · exact .inl ⟨_, last, .cons ended took taken⟩
      · obtain ⟨taken, rfl, ended', halted⟩ := stopped
        rw [Nat.add_right_comm, Nat.add_assoc] at halted
        exact .inr ⟨_, halt, last, .intro (.cons ended took taken) rfl ended' halted⟩

end

namespace Course

variable {α β : Type} {ev : Evaluator} {m n last : Machine} {asked : List Expr}

/-- A course that does nothing but ask: for these expressions, one after another. -/
inductive Asks (ev : Evaluator) :
    Course α → Machine → List Expr → Except Halt α → Machine → Prop where
  | done {value : α} {m : Machine} : Asks ev (.done value) m [] (.ok value) m
  | halt {cause : Halt} {m : Machine} : Asks ev (.halt cause) m [] (.error cause) m
  | ask {e : Expr} {next : Outcome → Course α} {outcome : Outcome} {asked : List Expr}
    {result : Except Halt α} {m n last : Machine} : settle (ev e) m = (outcome, n) →
    Asks ev (next outcome) n asked result last → Asks ev (.ask e next) m (e :: asked) result last

namespace Asks

theorem settle_eq {x : Course α} {result : Except Halt α} (asks : x.Asks ev m asked result last) :
    settle (x.run ev) m = (result, last) := by
  induction asks with
  | done | halt => rfl
  | @ask e next _ _ _ m _ _ ended _ ih =>
    show settle ((next (settle (ev e) m).1).run ev) (settle (ev e) m).2 = _
    rw [ended, ih]

theorem deeds_eq {x : Course α} {result : Except Halt α} (asks : x.Asks ev m asked result last)
    (inner : Expr → Machine → List Deed) : x.deeds inner ev m = deedsAll inner ev asked m := by
  induction asks with
  | done | halt => rfl
  | ask ended _ ih => rw [Course.deeds, deedsAll, ended, ih]

theorem bind {x : Course α} {f : α → Course β} {value : α} {result : Except Halt β}
    {later : List Expr} (first : x.Asks ev m asked (.ok value) n)
    (second : (f value).Asks ev n later result last) :
    (x >>= f).Asks ev m (asked ++ later) result last := by
  generalize came : (Except.ok value : Except Halt α) = given at first
  induction first with
  | done => cases came; exact second
  | halt => cases came
  | ask ended _ ih => exact .ask ended (ih second came)

theorem bind_error {x : Course α} {f : α → Course β} {halt : Halt}
    (first : x.Asks ev m asked (.error halt) last) :
    (x >>= f).Asks ev m asked (.error halt) last := by
  generalize came : (Except.error halt : Except Halt α) = given at first
  induction first with
  | done => cases came
  | halt => cases came; exact .halt
  | ask ended _ ih => exact .ask ended (ih came)

/-- What comes after a course may ask no more. -/
theorem conclude {x : Course α} {f : α → Course β} {value : α} {result : Except Halt β}
    (first : x.Asks ev m asked (.ok value) n) (second : (f value).Asks ev n [] result last) :
    (x >>= f).Asks ev m asked result last := by
  simpa using first.bind second

theorem map {x : Course α} {value : α} (first : x.Asks ev m asked (.ok value) last) (f : α → β) :
    (do return f (← x) : Course β).Asks ev m asked (.ok (f value)) last :=
  first.conclude .done

end Asks

/-- Takes something from the outcome of an expression. -/
def taken (take : Outcome → Except Halt α) (e : Expr) : Course α :=
  .ask e fun outcome =>
    match take outcome with
    | .ok value => .done value
    | .error cause => .halt cause

/-- Takes something from each outcome, the expressions numbered from `index` on. -/
def takenAll (take : Nat → Expr → Outcome → Except Halt α) : Nat → List Expr → Course (List α)
  | _, [] => pure []
  | index, e :: rest => do
    let value ← taken (take index e) e
    let values ← takenAll take (index + 1) rest
    pure (value :: values)

theorem mapM_eq_takenAll {take : Nat → Expr → Outcome → Except Halt α}
    {f : Expr × Nat → Course α} (one : ∀ e index, f (e, index) = taken (take index e) e)
    (index : Nat) (args : List Expr) :
    (args.zipIdx index).mapM f = takenAll take index args := by
  induction args generalizing index with
  | nil => rfl
  | cons e rest ih => rw [List.zipIdx_cons, List.mapM_cons, takenAll, one, ih (index + 1)]

theorem Asks.taken {take : Outcome → Except Halt α} {e : Expr} {outcome : Outcome}
    {result : Except Halt α} (ended : settle (ev e) m = (outcome, last))
    (took : take outcome = result) : (Course.taken take e).Asks ev m [e] result last := by
  refine .ask ended ?_
  rw [took]
  cases result with
  | ok value => exact .done
  | error cause => exact .halt

end Course

section

variable {α : Type} {ev : Evaluator} {take : Nat → Expr → Outcome → Except Halt α} {index : Nat}
  {args asked : List Expr} {m last : Machine}

theorem Taken.asks {values : List α} (taken : Taken ev take index args values m last) :
    (Course.takenAll take index args).Asks ev m args (.ok values) last := by
  induction taken with
  | nil => exact .done
  | cons ended took _ ih => exact (Course.Asks.taken ended took).bind (ih.map _)

theorem Stopped.asks {halt : Halt} (stopped : Stopped ev take index args m asked halt last) :
    (Course.takenAll take index args).Asks ev m asked (.error halt) last := by
  obtain ⟨taken, rfl, ended, halted⟩ := stopped
  induction taken with
  | nil => exact (Course.Asks.taken ended halted).bind_error
  | cons ended' took _ ih =>
    rw [List.length_cons, ← Nat.add_assoc, Nat.add_right_comm] at halted
    exact (Course.Asks.taken ended' took).bind (ih halted ended).bind_error

end

/-- A call whose course only asks has these expressions evaluated and does nothing else. -/
theorem onlyEvaluates_of_asks {tracing : Bool} {level : Int} (below : level < maxDepth)
    (builtin : Builtin) {args asked : List Expr} (ready : ∀ name, builtin ≠ .reserved name)
    (accepted : builtin.arity.accepts args.length) {loc headLoc : Int} {m last : Machine}
    {outcome : Outcome}
    (asks : (Course.apply loc builtin args).Asks (eval tracing (level + 1))
      ((Deed.start level (.list loc (.symbol headLoc builtin.name :: args))).replay tracing m)
      asked outcome last) :
    OnlyEvaluates tracing level (.list loc (.symbol headLoc builtin.name :: args)) m asked outcome
      last := by
  have applied := asks.settle_eq
  rw [Course.run_apply] at applied
  have result := evalTop_call below builtin ready accepted applied
  refine ⟨result, ?_⟩
  rw [deeds_call below builtin ready accepted, asks.deeds_eq, result]

end Sketch
