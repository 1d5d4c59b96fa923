import Sketch.Proofs.Eval.Course

/-! The deeds of an evaluation: the steps of the courses of all lists in it, one after another, with
the moments at which each expression starts to be evaluated and ends. They leave nothing out, since
doing them again leads to the same machine. -/
namespace Sketch

/-- A moment of an evaluation: something in it starts to be evaluated, or ends, or acts. -/
inductive Deed where
  | start (level : Int) (e : Expr)
  | act (step : Act)
  | finish (level : Int) (e : Expr) (outcome : Outcome)

/-- What the course does, with the deeds of what it asks in between. -/
def Course.deeds {α : Type} (inner : Expr → Machine → List Deed) (ev : Evaluator) :
    Course α → Machine → List Deed
  | .done _, _ | .halt _, _ => []
  | .look next, m => (next m.scopes).deeds inner ev m
  | .act step next, m => .act step :: next.deeds inner ev (step.perform m)
  | .ask e next, m =>
    inner e m ++ (next (settle (ev e) m).1).deeds inner ev (settle (ev e) m).2

namespace Deed

/-- Tracing records where lists start and end, unless they get stuck. -/
def replay (tracing : Bool) (m : Machine) : Deed → Machine
  | .start level (.list loc elements) =>
    if tracing then m.record (.enter level (.list loc elements)) else m
  | .finish level (.list ..) (.ok value) =>
    if tracing then m.record (.leave level (.ok value)) else m
  | .finish level (.list ..) (.error (.error e)) =>
    if tracing then m.record (.leave level (.error e)) else m
  | .act step => step.perform m
  | .start .. | .finish .. => m

theorem scopes_replay_start (tracing : Bool) (level : Int) (e : Expr) (m : Machine) :
    ((Deed.start level e).replay tracing m).scopes = m.scopes := by
  cases e <;> cases tracing <;> rfl

theorem scopes_replay_finish (tracing : Bool) (level : Int) (e : Expr) (outcome : Outcome)
    (m : Machine) : ((Deed.finish level e outcome).replay tracing m).scopes = m.scopes := by
  rcases outcome with (_ | _) | _ <;> cases e <;> cases tracing <;> rfl

end Deed

/-- Does again what the deeds did. -/
def replay (tracing : Bool) (m : Machine) (deeds : List Deed) : Machine :=
  deeds.foldl (Deed.replay tracing) m

@[simp] theorem replay_append (tracing : Bool) (m : Machine) (deeds more : List Deed) :
    replay tracing m (deeds ++ more) = replay tracing (replay tracing m deeds) more :=
  List.foldl_append

def deedsWithin (tracing : Bool) (room : Nat) (level : Int) (e : Expr) (m : Machine) : List Deed :=
  let body :=
    match e, room with
    | .list loc elements, room + 1 =>
      (Course.call loc elements).deeds (deedsWithin tracing room (level + 1))
        (evalWithin tracing room (level + 1)) ((Deed.start level e).replay tracing m)
    | _, _ => []
  .start level e :: body ++ [.finish level e (settle (evalWithin tracing room level e) m).1]

/-- Everything that the evaluation of an expression does, in its order. -/
def deeds (tracing : Bool) (level : Int) (e : Expr) (m : Machine) : List Deed :=
  deedsWithin tracing (maxDepth - level).toNat level e m

/-- A traced evaluation records its own start and finish. -/
theorem settle_traced (tracing : Bool) (level : Int) (loc : Int) (elements : List Expr)
    (body : EvalM Expr) (m : Machine) :
    let list := Expr.list loc elements
    let result := settle body ((Deed.start level list).replay tracing m)
    settle (traced tracing level list body) m =
      (result.1, (Deed.finish level list result.1).replay tracing result.2) := by
  cases tracing with
  | false =>
    show settle body m = ((settle body m).1,
      (Deed.finish level (.list loc elements) (settle body m).1).replay false (settle body m).2)
    obtain ⟨outcome, last⟩ := settle body m
    rcases outcome with (_ | _) | _ <;> rfl
  | true =>
    show settle (traced true level (.list loc elements) body) m =
      ((settle body (m.record (.enter level (.list loc elements)))).1,
        (Deed.finish level (.list loc elements) _).replay true _)
    cases ran : body (m.record (.enter level (.list loc elements))) with
    | ok => simp [settle, traced, Deed.replay, ran]
    | error cause => cases cause <;> simp [settle, traced, Deed.replay, ran]

theorem settle_evalWithin_list (tracing : Bool) (room : Nat) (level : Int) (loc : Int)
    (elements : List Expr) (m : Machine) :
    (settle (evalWithin tracing (room + 1) level (.list loc elements)) m).1 =
      (settle ((Course.call loc elements).run (evalWithin tracing room (level + 1)))
        ((Deed.start level (.list loc elements)).replay tracing m)).1 := by
  rw [evalWithin, settle_traced, Course.run_call]

theorem deedsWithin_list (tracing : Bool) (room : Nat) (level : Int) (loc : Int)
    (elements : List Expr) (m : Machine) :
    let list := Expr.list loc elements
    let ev := evalWithin tracing room (level + 1)
    let begun := (Deed.start level list).replay tracing m
    deedsWithin tracing (room + 1) level list m =
      .start level list ::
        (Course.call loc elements).deeds (deedsWithin tracing room (level + 1)) ev begun ++
        [.finish level list (settle ((Course.call loc elements).run ev) begun).1] := by
  intro list ev begun
  rw [deedsWithin, settle_evalWithin_list]

theorem deedsWithin_eq_append (tracing : Bool) (room : Nat) (level : Int) (e : Expr) (m : Machine) :
    ∃ before, deedsWithin tracing room level e m =
      before ++ [.finish level e (settle (evalWithin tracing room level e) m).1] := by
  rw [deedsWithin.eq_def]
  exact ⟨_, rfl⟩

/-- What is no list, or nested too deep, is evaluated at once. -/
theorem deedsWithin_simple (tracing : Bool) {room : Nat} (level : Int) {e : Expr}
    (simple : e.kind = .list → room = 0) (m : Machine) :
    deedsWithin tracing room level e m =
      [.start level e, .finish level e (settle (evalWithin tracing room level e) m).1] := by
  rw [deedsWithin.eq_def]
  cases e <;> try rfl
  cases simple rfl
  rfl

theorem Course.replay_deeds {α : Type} {tracing : Bool} {inner : Expr → Machine → List Deed}
    {ev : Evaluator} (told : ∀ e m, replay tracing m (inner e m) = after (ev e) m)
    (x : Course α) (m : Machine) :
    replay tracing m (x.deeds inner ev m) = after (x.run ev) m := by
  induction x generalizing m with
  | done | halt => rfl
  | look next ih => exact ih m.scopes m
  | act step next ih => exact ih (step.perform m)
  | ask e next ih =>
    rw [Course.deeds, replay_append, told, ← settle_snd]
    exact ih _ _

theorem after_evalSymbol (loc : Int) (name : Bytes) (m : Machine) :
    after (evalSymbol loc name) m = m := by
  unfold evalSymbol
  split
  · rfl
  split
  · rfl
  have found : lookup name m = .ok (Scopes.lookup m.scopes name) m := rfl
  rw [after_bind_of_ok found]
  split <;> rfl

theorem replay_deedsWithin (tracing : Bool) (room : Nat) (level : Int) (e : Expr) (m : Machine) :
    replay tracing m (deedsWithin tracing room level e m) =
      after (evalWithin tracing room level e) m := by
  induction room generalizing level e m with
  | zero =>
    rw [deedsWithin_simple tracing level (fun _ => rfl)]
    cases e with
    | list loc elements =>
      rw [evalWithin, ← settle_snd, settle_traced]
      rfl
    | symbol loc name => rw [evalWithin, after_evalSymbol]; rfl
    | nothing | number | string | boolean => rfl
  | succ room ih =>
    cases e with
    | list loc elements =>
      rw [deedsWithin_list, List.cons_append]
      show replay tracing _ (_ ++ [_]) = _
      rw [replay_append, Course.replay_deeds (ih (level + 1)), evalWithin, ← settle_snd,
        ← settle_snd, settle_traced, Course.run_call]
      rfl
    | symbol loc name =>
      rw [deedsWithin_simple tracing level (by simp [Expr.kind]), evalWithin, after_evalSymbol]
      rfl
    | nothing | number | string | boolean => rfl

theorem Course.call_of_accepts {builtin : Builtin} {args : List Expr}
    (ready : ∀ name, builtin ≠ .reserved name) (accepted : builtin.arity.accepts args.length)
    (loc headLoc : Int) :
    Course.call loc (.symbol headLoc builtin.name :: args) = Course.apply loc builtin args := by
  simp only [Course.call, Builtin.ofName?_name]
  cases builtin with
  | reserved name => exact absurd rfl (ready name)
  | arithmetic | comparison | equality | choice | binding | assignment | loop | rgb | setInk
  | clearInk | rect | line => exact if_pos accepted

theorem call_of_accepts {builtin : Builtin} {args : List Expr}
    (ready : ∀ name, builtin ≠ .reserved name) (accepted : builtin.arity.accepts args.length)
    (ev : Evaluator) (loc headLoc : Int) :
    call ev loc (.symbol headLoc builtin.name :: args) = builtin.apply ev loc args := by
  rw [← Course.run_call, Course.call_of_accepts ready accepted, Course.run_apply]

/-- Below the limit, a list has room for one level more than what is inside. -/
theorem room_of_lt {level : Int} (below : level < maxDepth) :
    (maxDepth - level).toNat = (maxDepth - (level + 1)).toNat + 1 := by
  omega

/-- Without tracing, a list below the limit is the built-in applied one level further in. -/
theorem eval_call {level : Int} (below : level < maxDepth) (builtin : Builtin) {args : List Expr}
    (ready : ∀ name, builtin ≠ .reserved name) (accepted : builtin.arity.accepts args.length)
    (loc headLoc : Int) : eval false level (.list loc (.symbol headLoc builtin.name :: args)) =
      builtin.apply (eval false (level + 1)) loc args := by
  rw [eval, room_of_lt below, evalWithin]
  exact call_of_accepts ready accepted (eval false (level + 1)) loc headLoc

/-- Below the limit, the built-in is applied one level further in, between the moments at which the
list starts and ends. -/
theorem evalTop_call {tracing : Bool} {level : Int} (below : level < maxDepth) (builtin : Builtin)
    {args : List Expr} (ready : ∀ name, builtin ≠ .reserved name)
    (accepted : builtin.arity.accepts args.length) {loc headLoc : Int} {m last : Machine}
    {outcome : Outcome}
    (applied : settle (builtin.apply (eval tracing (level + 1)) loc args)
      ((Deed.start level (.list loc (.symbol headLoc builtin.name :: args))).replay tracing m) =
        (outcome, last)) :
    evalTop tracing level (.list loc (.symbol headLoc builtin.name :: args)) m =
      (outcome, (Deed.finish level (.list loc (.symbol headLoc builtin.name :: args))
        outcome).replay tracing last) := by
  have inner : evalWithin tracing (maxDepth - (level + 1)).toNat (level + 1) =
      eval tracing (level + 1) := rfl
  rw [evalTop_eq_settle, eval, room_of_lt below, evalWithin, settle_traced,
    call_of_accepts ready accepted, inner, applied]

theorem deeds_call {tracing : Bool} {level : Int} (below : level < maxDepth) (builtin : Builtin)
    {args : List Expr} (ready : ∀ name, builtin ≠ .reserved name)
    (accepted : builtin.arity.accepts args.length) (loc headLoc : Int) (m : Machine) :
    let list := Expr.list loc (.symbol headLoc builtin.name :: args)
    deeds tracing level list m =
      .start level list :: (Course.apply loc builtin args).deeds (deeds tracing (level + 1))
        (eval tracing (level + 1)) ((Deed.start level list).replay tracing m) ++
        [.finish level list (evalTop tracing level list m).1] := by
  intro list
  rw [deeds, room_of_lt below, deedsWithin_list, ← settle_evalWithin_list, ← room_of_lt below,
    evalTop_eq_settle, Course.call_of_accepts ready accepted]
  rfl

end Sketch
