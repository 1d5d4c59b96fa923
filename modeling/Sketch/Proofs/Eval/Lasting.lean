import Sketch.Eval.Basic

/-! Relations between the machine before and the machine behind an evaluation. One that every
single step maintains holds across the evaluation of any expression, however it ends. -/
namespace Sketch

/-- The machine that an evaluation leaves behind, whether it succeeds or fails. -/
def after {α : Type} (x : EvalM α) (m : Machine) : Machine :=
  match x m with
  | .ok _ m => m
  | .error _ m => m

theorem after_of_ok {α : Type} {x : EvalM α} {m n : Machine} {value : α}
    (run : x m = .ok value n) : after x m = n := by
  simp [after, run]

theorem after_of_error {α : Type} {x : EvalM α} {m n : Machine} {halt : Halt}
    (run : x m = .error halt n) : after x m = n := by
  simp [after, run]

theorem bind_of_ok {α β : Type} {x : EvalM α} {f : α → EvalM β} {m n : Machine} {value : α}
    (run : x m = .ok value n) : (x >>= f) m = f value n := by
  simp only [Bind.bind, EStateM.bind, run]

theorem bind_of_error {α β : Type} {x : EvalM α} {f : α → EvalM β} {m n : Machine} {halt : Halt}
    (run : x m = .error halt n) : (x >>= f) m = .error halt n := by
  simp only [Bind.bind, EStateM.bind, run]

theorem after_bind_of_ok {α β : Type} {x : EvalM α} {f : α → EvalM β} {m n : Machine} {value : α}
    (run : x m = .ok value n) : after (x >>= f) m = after (f value) n := by
  simp only [after, bind_of_ok run]

theorem after_bind_of_error {α β : Type} {x : EvalM α} {f : α → EvalM β} {m n : Machine}
    {halt : Halt} (run : x m = .error halt n) : after (x >>= f) m = n := by
  simp only [after, bind_of_error run]

theorem after_attempt {α : Type} (x : EvalM α) (m : Machine) :
    after (attempt x) m = after x m := by
  unfold after attempt
  cases x m with
  | ok value n => rfl
  | error halt n => cases halt <;> rfl

theorem after_inScope {α : Type} (body : EvalM α) (m : Machine) :
    after (inScope body) m = (after body m.enterScope).exitScope := by
  unfold after inScope
  cases body m.enterScope <;> rfl

/-- Drawing only adds to the log. -/
theorem after_draw (shape : Canvas → List DrawCall) (m : Machine) :
    after (draw shape) m =
      { m with log := ((shape m.canvas).map Event.draw).reverse ++ m.log } := by
  have folded (calls : List DrawCall) (m : Machine) :
      calls.foldl (fun m call => m.record (.draw call)) m =
        { m with log := (calls.map Event.draw).reverse ++ m.log } := by
    induction calls generalizing m with
    | nil => rfl
    | cons call calls ih =>
      rw [List.foldl_cons, ih]
      simp [Machine.record]
  exact folded (shape m.canvas) m

theorem owner?_bind {α : Type} (name : Bytes) (f : Option Nat → EvalM α) (m : Machine) :
    (owner? name >>= f) m = f (Scopes.owner? m.scopes name) m := rfl

theorem after_owner?_bind {α : Type} (name : Bytes) (f : Option Nat → EvalM α) (m : Machine) :
    after (owner? name >>= f) m = after (f (Scopes.owner? m.scopes name)) m := rfl

theorem evalTop_snd (tracing : Bool) (level : Int) (expr : Expr) (m : Machine) :
    (evalTop tracing level expr m).2 = after (eval tracing level expr) m := by
  unfold evalTop after
  cases eval tracing level expr m <;> rfl

theorem exitScope_assign_zero (name : Bytes) (value : Expr) (m : Machine) :
    (after (assign 0 name value) m).exitScope = m.exitScope := by
  obtain ⟨scopes, canvas, log⟩ := m
  cases scopes <;> rfl

def Keeps (R : Machine → Machine → Prop) {α : Type} (x : EvalM α) : Prop := ∀ m, R m (after x m)

structure Cumulative (R : Machine → Machine → Prop) : Prop where
  refl : ∀ m, R m m
  trans : ∀ {a b c}, R a b → R b c → R a c

/-- What the steps of an evaluation maintain. -/
structure Lasting (R : Machine → Machine → Prop) : Prop extends Cumulative R where
  /-- It holds of the outer scopes, too. -/
  exitScope : ∀ {a b}, R a b → R a.exitScope b.exitScope
  /-- The scope to assign in may have been chosen earlier. -/
  assign : ∀ {a b name scope} value, Scopes.owner? a.scopes name = some scope → R a b →
    R b (after (Sketch.assign scope name value) b)
  setColour : ∀ ink colour, Keeps R (Sketch.setColour ink colour)
  rect : ∀ x y w h, Keeps R (draw fun canvas => canvas.rect x y w h)
  line : ∀ x₁ y₁ x₂ y₂, Keeps R (draw fun canvas => canvas.line x₁ y₁ x₂ y₂)
  enter : ∀ m level list, R m (m.record (.enter level list))
  leave : ∀ m level outcome, R m (m.record (.leave level outcome))

namespace Cumulative

variable {R : Machine → Machine → Prop} (lasting : Cumulative R)
include lasting

theorem pure {α : Type} (value : α) : Keeps R (Pure.pure value : EvalM α) :=
  fun m => lasting.refl m

theorem fail {α : Type} (fault : Fault) (loc : Int) : Keeps R (Sketch.fail fault loc : EvalM α) :=
  fun m => lasting.refl m

theorem stuck {α : Type} : Keeps R (Sketch.stuck : EvalM α) := fun m => lasting.refl m

theorem bind {α β : Type} {x : EvalM α} {f : α → EvalM β} (first : Keeps R x)
    (later : ∀ value, Keeps R (f value)) : Keeps R (x >>= f) := by
  intro m
  have start := first m
  cases run : x m with
  | ok value n =>
    rw [after_of_ok run] at start
    rw [after_bind_of_ok run]
    exact lasting.trans start (later value n)
  | error halt n =>
    rw [after_of_error run] at start
    rw [after_bind_of_error run]
    exact start

theorem mapM {α β : Type} {f : α → EvalM β} (each : ∀ a, Keeps R (f a)) (list : List α) :
    Keeps R (list.mapM f) := by
  induction list with
  | nil =>
    rw [List.mapM_nil]
    exact lasting.pure _
  | cons a rest ih =>
    rw [List.mapM_cons]
    exact lasting.bind (each a) fun _ => lasting.bind ih fun _ => lasting.pure _

theorem foldlM {α β : Type} {f : β → α → EvalM β} (each : ∀ b a, Keeps R (f b a))
    (list : List α) (start : β) : Keeps R (list.foldlM f start) := by
  induction list generalizing start with
  | nil => exact lasting.pure _
  | cons a rest ih =>
    rw [List.foldlM_cons]
    exact lasting.bind (each start a) fun next => ih next

theorem forM {α : Type} {f : α → EvalM Unit} (each : ∀ a, Keeps R (f a)) (list : List α) :
    Keeps R (list.forM f) := by
  induction list with
  | nil => exact lasting.pure _
  | cons a rest ih => exact lasting.bind (each a) fun _ => ih

theorem chained (rel : Relation) (arg left : Expr) (rest : List (Expr × Expr)) :
    Keeps R (Form.chained rel arg left rest) := by
  induction rest generalizing arg left with
  | nil => exact lasting.pure _
  | cons next rest ih =>
    unfold Form.chained
    split
    · split
      · exact ih _ _
      · exact lasting.pure _
    · exact lasting.fail _ _

/-- One round keeps the relation, and so does any number of them. -/
theorem repeatWhile {test : EvalM Bool} {body exceeded : EvalM Unit} (tested : Keeps R test)
    (done : Keeps R body) (ended : Keeps R exceeded) (rounds : Nat) :
    Keeps R (Form.repeatWhile test body exceeded rounds) := by
  induction rounds with
  | zero =>
    refine lasting.bind tested fun holds => ?_
    split
    · exact ended
    · exact lasting.pure _
  | succ rounds ih =>
    refine lasting.bind tested fun holds => ?_
    split
    · exact lasting.bind done fun _ => ih
    · exact lasting.pure _

end Cumulative

theorem Keeps.attempt {R : Machine → Machine → Prop} {α : Type} {x : EvalM α}
    (kept : Keeps R x) : Keeps R (Sketch.attempt x) := by
  intro m
  rw [after_attempt]
  exact kept m

/-- Inside a scope of its own, `body` may do to that scope whatever it likes. -/
theorem Keeps.inScope {R : Machine → Machine → Prop} {α : Type} {body : EvalM α}
    (kept : Keeps (fun a b => R a.exitScope b.exitScope) body) : Keeps R (Sketch.inScope body) := by
  intro m
  rw [after_inScope]
  exact kept m.enterScope

namespace Lasting

variable {R : Machine → Machine → Prop} (lasting : Lasting R)
include lasting

/-- The relation for what happens inside a scope that will be gone. -/
theorem inside : Cumulative fun a b => R a.exitScope b.exitScope :=
  ⟨fun m => lasting.refl m.exitScope, lasting.trans⟩

theorem traced {body : EvalM Expr} (kept : Keeps R body) (tracing : Bool) (level : Int)
    (list : Expr) : Keeps R (Sketch.traced tracing level list body) := by
  cases tracing with
  | false => exact kept
  | true =>
    intro m
    have entered := lasting.trans (lasting.enter m level list) (kept _)
    cases run : body (m.record (.enter level list)) with
    | ok value n =>
      rw [after_of_ok run] at entered
      have ended : after (Sketch.traced true level list body) m
          = n.record (.leave level (.ok value)) := by simp [after, Sketch.traced, run]
      rw [ended]
      exact lasting.trans entered (lasting.leave n level _)
    | error halt n =>
      rw [after_of_error run] at entered
      cases halt with
      | error e =>
        have ended : after (Sketch.traced true level list body) m
            = n.record (.leave level (.error e)) := by simp [after, Sketch.traced, run]
        rw [ended]
        exact lasting.trans entered (lasting.leave n level _)
      | stuck =>
        have ended : after (Sketch.traced true level list body) m = n := by
          simp [after, Sketch.traced, run]
        rw [ended]
        exact entered

variable {eval : Evaluator} (kept : ∀ e, Keeps R (eval e))
include kept

theorem numberOf (builtin : Builtin) (arg : Expr) : Keeps R (Form.numberOf eval builtin arg) := by
  refine lasting.bind (kept arg) fun value => ?_
  split
  · exact lasting.pure _
  · exact lasting.fail _ _

theorem arithmetic (op : Operation) (args : List Expr) :
    Keeps R (Form.arithmetic eval op args) := by
  have operate (x : Float) (arg : Expr) : Keeps R (Form.operate eval op x arg) := by
    refine lasting.bind (lasting.numberOf kept _ arg) fun y => ?_
    split
    · exact lasting.fail _ _
    · exact lasting.pure _
  unfold Form.arithmetic
  split
  · exact lasting.bind (lasting.pure _) fun _ => lasting.pure _
  · exact lasting.bind (operate _ _) fun _ => lasting.pure _
  · refine lasting.bind (lasting.numberOf kept _ _) fun x => ?_
    exact lasting.bind (lasting.foldlM operate _ x) fun _ => lasting.pure _

theorem comparison (rel : Relation) (args : List Expr) :
    Keeps R (Form.comparison eval rel args) := by
  refine lasting.bind (lasting.mapM kept args) fun values => ?_
  split
  · exact lasting.bind (lasting.chained rel _ _ _) fun _ => lasting.pure _
  · exact lasting.stuck

theorem equality (args : List Expr) : Keeps R (Form.equality eval args) := by
  have comparand (arg : Expr) (index : Nat) : Keeps R (Form.comparand eval arg index) := by
    refine lasting.bind (kept arg) fun value => ?_
    split
    · exact lasting.fail _ _
    · exact lasting.pure _
  refine lasting.bind (lasting.mapM (fun (entry : Expr × Nat) => comparand entry.1 entry.2) _)
    fun values => ?_
  split
  · split
    · exact lasting.fail _ _
    · exact lasting.fail _ _
    · exact lasting.pure _
  · exact lasting.stuck

theorem choice (condition yes no : Expr) : Keeps R (Form.choice eval condition yes no) := by
  refine lasting.bind (kept condition) fun value => ?_
  split
  · exact lasting.fail _ _
  split
  · exact lasting.fail _ _
  refine lasting.bind (kept _) fun result => ?_
  split
  · exact lasting.fail _ _
  · exact lasting.pure _

theorem loop (loc : Int) (condition : Expr) (forms : List Expr) :
    Keeps R (Form.loop eval loc condition forms) := by
  have test : Keeps R (Form.holdsNow eval condition) := by
    refine lasting.bind (kept condition) fun value => ?_
    split
    · exact lasting.fail _ _
    · exact lasting.pure _
  have body : Keeps R (forms.forM fun form => discard (eval form)) :=
    lasting.forM (fun form => lasting.bind (kept form) fun _ => lasting.pure _) forms
  exact lasting.bind (lasting.repeatWhile test body (lasting.fail _ _) _)
    fun _ => lasting.pure _

/-- A binding is made in the innermost scope, and touches no other. -/
theorem bindOne (binding : Expr) :
    Keeps (fun a b => R a.exitScope b.exitScope) (Form.bindOne eval binding) := by
  unfold Form.bindOne
  split
  · next name expr =>
    refine lasting.inside.bind (fun m => lasting.exitScope (kept expr m)) fun value => ?_
    split
    · exact lasting.inside.fail _ _
    · intro m
      rw [exitScope_assign_zero]
      exact lasting.refl _
  · exact lasting.inside.stuck
  · exact lasting.inside.stuck
  · exact lasting.inside.fail _ _

theorem binding (bindings : Expr) (forms : List Expr) :
    Keeps R (Form.binding eval bindings forms) := by
  unfold Form.binding
  split
  · apply Keeps.inScope
    refine lasting.inside.bind (lasting.inside.forM (lasting.bindOne kept) _) fun _ => ?_
    exact lasting.inside.foldlM (fun _ form m => lasting.exitScope (kept form m)) _ _
  · exact lasting.stuck
  · exact lasting.fail _ _

theorem placeName? (place : Expr) : Keeps R (Form.placeName? eval place) := by
  unfold Form.placeName?
  split
  · exact lasting.pure _
  · exact lasting.stuck
  · refine lasting.bind (kept place).attempt fun value => ?_
    split
    · exact lasting.pure _
    · exact lasting.pure _

theorem assignment (place expr : Expr) : Keeps R (Form.assignment eval place expr) := by
  refine lasting.bind (lasting.placeName? kept place) fun name => ?_
  split
  · next name =>
    intro m
    -- the scope is that of the machine before the value is evaluated
    rw [after_owner?_bind]
    cases chosen : Scopes.owner? m.scopes name with
    | none => exact lasting.fail _ _ m
    | some scope =>
      have start := kept expr m
      cases run : eval expr m with
      | ok value n =>
        rw [after_of_ok run] at start
        rw [after_bind_of_ok run]
        split
        · exact start
        · exact lasting.trans start (lasting.assign value chosen start)
      | error halt n =>
        rw [after_of_error run] at start
        rw [after_bind_of_error run]
        exact start
  · exact lasting.fail _ _

theorem rgb (args : List Expr) : Keeps R (Form.rgb eval args) := by
  refine lasting.bind (lasting.mapM (lasting.numberOf kept _) args) fun numbers => ?_
  split
  · exact lasting.pure _
  · exact lasting.stuck

theorem setInk (ink : Ink) (arg : Expr) : Keeps R (Form.setInk eval ink arg) := by
  refine lasting.bind (kept arg) fun value => ?_
  split
  · exact lasting.bind (lasting.setColour _ _) fun _ => lasting.pure _
  · exact lasting.fail _ _

theorem drawing (builtin : Builtin)
    {shape : Float → Float → Float → Float → Canvas → List DrawCall}
    (drawn : ∀ a b c d, Keeps R (draw (shape a b c d))) (args : List Expr) :
    Keeps R (Form.drawing eval builtin shape args) := by
  refine lasting.bind (lasting.mapM (lasting.numberOf kept _) args) fun numbers => ?_
  split
  · exact lasting.bind (drawn _ _ _ _) fun _ => lasting.pure _
  · exact lasting.stuck

theorem apply (loc : Int) (builtin : Builtin) (args : List Expr) :
    Keeps R (builtin.apply eval loc args) := by
  unfold Builtin.apply
  split
  · exact lasting.arithmetic kept _ _
  · exact lasting.comparison kept _ _
  · exact lasting.equality kept _
  · exact lasting.choice kept _ _ _
  · exact lasting.binding kept _ _
  · exact lasting.assignment kept _ _
  · exact lasting.loop kept _ _ _
  · exact lasting.rgb kept _
  · exact lasting.setInk kept _ _
  · exact lasting.bind (lasting.setColour _ _) fun _ => lasting.pure _
  · exact lasting.drawing kept _ lasting.rect _
  · exact lasting.drawing kept _ lasting.line _
  · exact lasting.stuck

theorem call (loc : Int) (elements : List Expr) : Keeps R (call eval loc elements) := by
  unfold Sketch.call
  split
  · exact lasting.fail _ _
  · exact lasting.stuck
  · split
    · exact lasting.fail _ _
    · exact lasting.fail _ _
    · split
      · exact lasting.apply kept _ _ _
      · exact lasting.fail _ _
  · exact lasting.fail _ _

omit kept

theorem evalSymbol (loc : Int) (name : Bytes) : Keeps R (evalSymbol loc name) := by
  unfold Sketch.evalSymbol
  split
  · exact lasting.pure _
  split
  · exact lasting.pure _
  refine lasting.bind (fun m => lasting.refl m) fun value => ?_
  split
  · exact lasting.fail _ _
  · exact lasting.pure _

/-- Any evaluation maintains what its steps do. -/
theorem evalWithin (tracing : Bool) (room : Nat) (level : Int) (expr : Expr) :
    Keeps R (evalWithin tracing room level expr) := by
  induction room generalizing level expr with
  | zero =>
    cases expr with
    | nothing => exact lasting.stuck
    | number | string | boolean => exact lasting.pure _
    | symbol loc name => exact lasting.evalSymbol loc name
    | list loc elements => exact lasting.traced (lasting.fail _ loc) tracing level _
  | succ room ih =>
    cases expr with
    | nothing => exact lasting.stuck
    | number | string | boolean => exact lasting.pure _
    | symbol loc name => exact lasting.evalSymbol loc name
    | list loc elements =>
      exact lasting.traced (lasting.call (ih (level + 1)) loc elements) tracing level _

theorem evalTop (tracing : Bool) (level : Int) (expr : Expr) (m : Machine) :
    R m (evalTop tracing level expr m).2 := by
  rw [evalTop_snd]
  exact lasting.evalWithin tracing _ level expr m

/-- A whole program maintains it as well, failed expressions included. -/
theorem run (tracing : Bool) (program : List Expr) (m : Machine) :
    R m (run tracing program m).2 := by
  unfold Sketch.run
  induction program generalizing m with
  | nil => exact lasting.refl m
  | cons expr rest ih =>
    rw [List.mapM_cons]
    exact lasting.trans (lasting.evalTop tracing 0 expr m) (ih _)

end Lasting

end Sketch
