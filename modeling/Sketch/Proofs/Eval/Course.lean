import Sketch.Proofs.Eval.Lasting

/-! What a call does, step by step. A course names the steps in their order: each expression that is
evaluated, each look at the scopes and each act on the machine, and it goes on after every one of
them as its result tells. Every built-in has a course, and with any evaluator the call is its course
carried out. -/
namespace Sketch

/-- What changes the machine. -/
inductive Act where
  | assign (scope : Nat) (name : Bytes) (value : Expr)
  | setColour (ink : Ink) (colour : Bytes)
  | draw (shape : Canvas → List DrawCall)
  | enterScope
  | exitScope

def Act.perform (m : Machine) : Act → Machine
  | .assign scope name value => after (Sketch.assign scope name value) m
  | .setColour ink colour => after (Sketch.setColour ink colour) m
  | .draw shape => after (Sketch.draw shape) m
  | .enterScope => m.enterScope
  | .exitScope => m.exitScope

inductive Course (α : Type) where
  | done (value : α)
  | halt (cause : Halt)
  | look (next : Scopes → Course α)
  | act (step : Act) (next : Course α)
  | ask (e : Expr) (next : Outcome → Course α)

/-- How an evaluation ends, and the machine it leaves behind. -/
def settle {α : Type} (x : EvalM α) (m : Machine) : Except Halt α × Machine :=
  match x m with
  | .ok value m => (.ok value, m)
  | .error halt m => (.error halt, m)

theorem settle_snd {α : Type} (x : EvalM α) (m : Machine) : (settle x m).2 = after x m := by
  unfold settle after
  cases x m <;> rfl

theorem eq_ok_of_settle {α : Type} {x : EvalM α} {m : Machine} {value : α}
    (ended : (settle x m).1 = .ok value) : x m = .ok value (settle x m).2 := by
  unfold settle at ended ⊢
  cases ran : x m with
  | ok found n => rw [ran] at ended; cases ended; rfl
  | error halt n => rw [ran] at ended; cases ended

theorem eq_error_of_settle {α : Type} {x : EvalM α} {m : Machine} {halt : Halt}
    (ended : (settle x m).1 = .error halt) : x m = .error halt (settle x m).2 := by
  unfold settle at ended ⊢
  cases ran : x m with
  | ok found n => rw [ran] at ended; cases ended
  | error cause n => rw [ran] at ended; cases ended; rfl

theorem evalTop_eq_settle (tracing : Bool) (level : Int) (e : Expr) (m : Machine) :
    evalTop tracing level e m = settle (Sketch.eval tracing level e) m := by
  unfold evalTop settle
  cases Sketch.eval tracing level e m <;> rfl

namespace Course

variable {α β : Type}

def bind (x : Course α) (f : α → Course β) : Course β :=
  match x with
  | .done value => f value
  | .halt cause => .halt cause
  | .look next => .look fun scopes => (next scopes).bind f
  | .act step next => .act step (next.bind f)
  | .ask e next => .ask e fun outcome => (next outcome).bind f

instance : Monad Course where
  pure := done
  bind := bind

instance : LawfulMonad Course :=
  LawfulMonad.mk' Course
    (fun x => by
      show x.bind done = x
      induction x with
      | done | halt => rfl
      | look next ih => exact congrArg look (funext ih)
      | act step next ih => exact congrArg (act step) ih
      | ask e next ih => exact congrArg (ask e) (funext ih))
    (fun _ _ => rfl)
    (fun x f g => by
      show (x.bind f).bind g = x.bind fun value => (f value).bind g
      induction x with
      | done | halt => rfl
      | look next ih => exact congrArg look (funext ih)
      | act step next ih => exact congrArg (act step) ih
      | ask e next ih => exact congrArg (ask e) (funext ih))

/-- Carries out a course, with an evaluator for what it asks. -/
def run (ev : Evaluator) : Course α → EvalM α
  | .done value => pure value
  | .halt cause => throw cause
  | .look next => fun m => (next m.scopes).run ev m
  | .act step next => fun m => next.run ev (step.perform m)
  | .ask e next => fun m => (next (settle (ev e) m).1).run ev (settle (ev e) m).2

def fail (fault : Fault) (loc : Int) : Course α := .halt (.error ⟨fault, loc⟩)

def stuck : Course α := .halt .stuck

def eval (e : Expr) : Course Expr :=
  .ask e fun
    | .ok value => .done value
    | .error cause => .halt cause

def perform (step : Act) : Course Unit := .act step (.done ())

/-- Leaves the innermost scope in the end, whatever the end is. -/
def leaving : Course α → Course α
  | .done value => .act .exitScope (.done value)
  | .halt cause => .act .exitScope (.halt cause)
  | .look next => .look fun scopes => (next scopes).leaving
  | .act step next => .act step next.leaving
  | .ask e next => .ask e fun outcome => (next outcome).leaving

def inScope (body : Course α) : Course α := .act .enterScope body.leaving

def attempt (e : Expr) : Course (Option Expr) :=
  .ask e fun
    | .ok value => .done (some value)
    | .error (.error _) => .done none
    | .error .stuck => .halt .stuck

def numberOf (builtin : Builtin) (arg : Expr) : Course Float := do
  match ← eval arg with
  | .number _ x => pure x
  | value => fail (.notNumber builtin value.kind) arg.loc

def operate (op : Operation) (result : Float) (arg : Expr) : Course Float := do
  let x ← numberOf (.arithmetic op) arg
  if op == .divide && x == 0 then fail .divisionByZero arg.loc
  else pure (op.apply result x)

def arithmetic (op : Operation) : List Expr → Course Float
  | [] => pure op.unit
  | [arg] => operate op op.unit arg
  | first :: rest => do
    let x ← numberOf (.arithmetic op) first
    rest.foldlM (operate op) x

def chained (rel : Relation) (arg left : Expr) : List (Expr × Expr) → Course Bool
  | [] => pure true
  | (next, right) :: rest =>
    match left, right with
    | .number _ x, .number _ y => if rel.holds x y then chained rel next right rest else pure false
    | _, _ => fail (.incomparable left.kind right.kind) arg.loc

def comparison (rel : Relation) (args : List Expr) : Course Bool := do
  match args.zip (← args.mapM eval) with
  | (arg, left) :: rest => chained rel arg left rest
  | [] => stuck

def comparand (entry : Expr × Nat) : Course Expr := do
  match ← eval entry.1 with
  | .nothing => fail (.equalityOfNothing entry.2) entry.1.loc
  | value => pure value

def equality (args : List Expr) : Course Bool := do
  match args, ← args.zipIdx.mapM comparand with
  | arg :: _, first :: others =>
    match first with
    | .symbol .. | .list .. => fail (.equalityOf first.kind) arg.loc
    | _ => pure (others.all (·.equals first))
  | _, _ => stuck

def choice (condition yes no : Expr) : Course Expr := do
  match ← eval condition with
  | .nothing => fail .missingCondition condition.loc
  | value =>
    match value.truth? with
    | none => fail (.badCondition .choice value.kind) condition.loc
    | some truth =>
      let branch := if truth then yes else no
      match ← eval branch with
      | .nothing => fail (.missingBranch truth) branch.loc
      | value => pure value

def holdsNow (condition : Expr) : Course Bool := do
  let value ← eval condition
  match value.truth? with
  | none => fail (.badCondition .loop value.kind) condition.loc
  | some truth => pure truth

def repeatWhile (test : Course Bool) (body exceeded : Course Unit) : (rounds : Nat) → Course Unit
  | 0 => do if ← test then exceeded else pure ()
  | rounds + 1 => do
    if ← test then
      body
      repeatWhile test body exceeded rounds
    else pure ()

def loop (loc : Int) (condition : Expr) (forms : List Expr) : Course Unit :=
  repeatWhile (holdsNow condition) (forms.forM fun form => discard (eval form))
    (fail .tooManyRounds loc) maxRounds

def bindOne : Expr → Course Unit
  | .list _ [.symbol _ name, expr] => do
    match ← eval expr with
    | .nothing => fail .missingBinding expr.loc
    | value => perform (.assign 0 name value)
  | .nothing | .list _ [.nothing, _] => stuck
  | other => fail .malformedBinding other.loc

def binding (forms : List Expr) : Expr → Course Expr
  | .list _ bindings => inScope do
    bindings.forM bindOne
    forms.foldlM (fun _ form => eval form) .nothing
  | .nothing => stuck
  | other => fail .bindingsNotList other.loc

def placeName? : Expr → Course (Option Bytes)
  | .symbol _ name => pure (some name)
  | .nothing => stuck
  | place => do
    match ← attempt place with
    | some (.symbol _ name) => pure (some name)
    | _ => pure none

def assignment (place expr : Expr) : Course Expr := do
  let some name ← placeName? place | fail .unboundPlace place.loc
  let some scope ← look fun scopes => pure (scopes.owner? name) | fail .unboundPlace place.loc
  match ← eval expr with
  | .nothing => fail .missingValue expr.loc
  | value =>
    perform (.assign scope name value)
    return value

def rgb (args : List Expr) : Course Bytes := do
  match ← args.mapM (numberOf .rgb) with
  | [r, g, b] => pure (Form.rgbColour r g b)
  | _ => stuck

def setInk (ink : Ink) (arg : Expr) : Course Unit := do
  match ← eval arg with
  | .string _ colour => perform (.setColour ink colour)
  | value => fail (.notString ink value.kind) arg.loc

def drawing (builtin : Builtin) (shape : Float → Float → Float → Float → Canvas → List DrawCall)
    (args : List Expr) : Course Unit := do
  match ← args.mapM (numberOf builtin) with
  | [a, b, c, d] => perform (.draw (shape a b c d))
  | _ => stuck

def apply (loc : Int) : Builtin → List Expr → Course Expr
  | .arithmetic op, args => return .number noLoc (← arithmetic op args)
  | .comparison rel, args => return .boolean noLoc (← comparison rel args)
  | .equality, args => return .boolean noLoc (← equality args)
  | .choice, [condition, yes, no] => choice condition yes no
  | .binding, bindings :: forms => binding forms bindings
  | .assignment, [place, expr] => assignment place expr
  | .loop, condition :: forms => do
    loop loc condition forms
    return .boolean noLoc false
  | .rgb, args => return .string noLoc (← rgb args)
  | .setInk ink, [arg] => do
    setInk ink arg
    return .nothing
  | .clearInk ink, [] => do
    perform (.setColour ink noColour)
    return .nothing
  | .rect, args => do
    drawing .rect (fun x y w h canvas => canvas.rect x y w h) args
    return .nothing
  | .line, args => do
    drawing .line (fun x₁ y₁ x₂ y₂ canvas => canvas.line x₁ y₁ x₂ y₂) args
    return .nothing
  | _, _ => stuck

/-- What the evaluation of a list does. -/
def call (loc : Int) (elements : List Expr) : Course Expr :=
  match elements with
  | [] => fail .emptyList loc
  | .nothing :: _ => stuck
  | .symbol headLoc name :: args =>
    match Builtin.ofName? name with
    | none => fail (.notCallable (Expr.list loc elements).text) loc
    | some (.reserved name) => fail (.unimplemented name) headLoc
    | some builtin =>
      if builtin.arity.accepts args.length then apply loc builtin args
      else fail (.wrongArity builtin) loc
  | _ => fail (.notCallable (Expr.list loc elements).text) loc

section Run

variable (ev : Evaluator)

theorem run_bind (x : Course α) (f : α → Course β) :
    (x >>= f).run ev = x.run ev >>= fun value => (f value).run ev := by
  funext m
  induction x generalizing m with
  | done | halt => rfl
  | look next ih => exact ih m.scopes m
  | act step next ih => exact ih (step.perform m)
  | ask e next ih => exact ih (settle (ev e) m).1 (settle (ev e) m).2

@[simp] theorem run_eval (e : Expr) : (eval e).run ev = ev e := by
  funext m
  unfold eval run settle
  cases ev e m <;> rfl

@[simp] theorem run_attempt (e : Expr) : (attempt e).run ev = Sketch.attempt (ev e) := by
  funext m
  unfold attempt run settle Sketch.attempt
  cases ev e m with
  | ok => rfl
  | error cause => cases cause <;> rfl

@[simp] theorem run_inScope (body : Course α) :
    (inScope body).run ev = Sketch.inScope (body.run ev) := by
  funext m
  unfold Sketch.inScope
  show body.leaving.run ev m.enterScope = _
  generalize m.enterScope = n
  induction body generalizing n with
  | done | halt => rfl
  | look next ih => exact ih n.scopes n
  | act step next ih => exact ih (step.perform n)
  | ask e next ih => exact ih (settle (ev e) n).1 (settle (ev e) n).2

theorem run_mapM (f : β → Course α) (list : List β) :
    (list.mapM f).run ev = list.mapM fun b => (f b).run ev := by
  induction list with
  | nil => rfl
  | cons b rest ih => simp only [List.mapM_cons, run_bind, ih]; rfl

theorem run_foldlM (f : α → β → Course α) (list : List β) (start : α) :
    (list.foldlM f start).run ev = list.foldlM (fun a b => (f a b).run ev) start := by
  induction list generalizing start with
  | nil => rfl
  | cons b rest ih => simp only [List.foldlM_cons, run_bind, ih]

theorem run_forM (f : β → Course Unit) (list : List β) :
    (list.forM f).run ev = list.forM fun b => (f b).run ev := by
  induction list with
  | nil => rfl
  | cons b rest ih => simp only [List.forM, run_bind, ih]

@[simp] theorem run_numberOf (builtin : Builtin) (arg : Expr) :
    (numberOf builtin arg).run ev = Form.numberOf ev builtin arg := by
  rw [numberOf, Form.numberOf, run_bind, run_eval]
  congr 1
  funext value
  cases value <;> rfl

@[simp] theorem run_operate (op : Operation) (x : Float) (arg : Expr) :
    (operate op x arg).run ev = Form.operate ev op x arg := by
  rw [operate, Form.operate, run_bind, run_numberOf]
  congr 1
  funext y
  split <;> rfl

theorem run_arithmetic (op : Operation) (args : List Expr) :
    (do return .number noLoc (← arithmetic op args) : Course Expr).run ev =
      Form.arithmetic ev op args := by
  rw [run_bind]
  match args with
  | [] => rfl
  | [arg] => rw [arithmetic, run_operate]; rfl
  | first :: second :: rest =>
    rw [arithmetic, run_bind, run_numberOf, bind_assoc]
    · simp only [run_foldlM, run_operate]
      rfl
    · simp

theorem run_chained (rel : Relation) (arg left : Expr) (rest : List (Expr × Expr)) :
    (chained rel arg left rest).run ev = Form.chained rel arg left rest := by
  induction rest generalizing arg left with
  | nil => rfl
  | cons entry rest ih =>
    obtain ⟨next, right⟩ := entry
    cases left <;> cases right <;> try rfl
    rw [chained, Form.chained, ← ih]
    split <;> rfl

theorem run_comparison (rel : Relation) (args : List Expr) :
    (do return .boolean noLoc (← comparison rel args) : Course Expr).run ev =
      Form.comparison ev rel args := by
  rw [run_bind, comparison, run_bind, run_mapM, bind_assoc, Form.comparison]
  simp only [run_eval]
  congr 1
  funext values
  cases args.zip values with
  | nil => rfl
  | cons entry rest => simp only [run_chained]; rfl

theorem run_equality (args : List Expr) :
    (do return .boolean noLoc (← equality args) : Course Expr).run ev = Form.equality ev args := by
  have compared (entry : Expr × Nat) :
      (comparand entry).run ev = Form.comparand ev entry.1 entry.2 := by
    rw [comparand, Form.comparand, run_bind, run_eval]
    congr 1
    funext value
    cases value <;> rfl
  rw [run_bind, equality, run_bind, run_mapM, bind_assoc, Form.equality]
  simp only [compared]
  congr 1
  funext values
  cases args with
  | nil => rfl
  | cons arg rest =>
    cases values with
    | nil => rfl
    | cons first others => cases first <;> rfl

theorem run_choice (condition yes no : Expr) :
    (choice condition yes no).run ev = Form.choice ev condition yes no := by
  rw [choice, Form.choice, run_bind, run_eval]
  congr 1
  funext value
  cases value <;> try rfl
  -- the condition has a truth value, and the branch it chooses is evaluated
  all_goals
    simp only [Expr.truth?, run_bind, run_eval]
    congr 1
    funext result
    cases result <;> rfl

theorem run_repeatWhile (test : Course Bool) (body exceeded : Course Unit) (rounds : Nat) :
    (repeatWhile test body exceeded rounds).run ev =
      Form.repeatWhile (test.run ev) (body.run ev) (exceeded.run ev) rounds := by
  induction rounds with
  | zero =>
    rw [repeatWhile, Form.repeatWhile, run_bind]
    congr 1
    funext holds
    cases holds <;> rfl
  | succ rounds ih =>
    rw [repeatWhile, Form.repeatWhile, run_bind]
    congr 1
    funext holds
    cases holds with
    | false => rfl
    | true => simp only [if_true, run_bind, ih]

theorem run_loop (loc : Int) (condition : Expr) (forms : List Expr) :
    (do loop loc condition forms; return .boolean noLoc false : Course Expr).run ev =
      Form.loop ev loc condition forms := by
  have tested : (holdsNow condition).run ev = Form.holdsNow ev condition := by
    rw [holdsNow, Form.holdsNow, run_bind, run_eval]
    congr 1
    funext value
    cases value.truth? <;> rfl
  have ran : (forms.forM fun form => discard (eval form)).run ev =
      forms.forM fun form => discard (ev form) := by
    rw [run_forM]
    congr 1
    funext form
    show (eval form >>= fun _ => pure ()).run ev = (ev form >>= fun _ => pure ())
    rw [run_bind, run_eval]
    rfl
  rw [run_bind, loop, run_repeatWhile, tested, ran]
  rfl

theorem run_bindOne (bound : Expr) : (bindOne bound).run ev = Form.bindOne ev bound := by
  unfold bindOne
  split
  · rw [run_bind, run_eval, Form.bindOne]
    congr 1
    funext value
    cases value <;> rfl
  · rfl
  · rfl
  · rw [Form.bindOne] <;> first | rfl | assumption

theorem run_binding (bindings : Expr) (forms : List Expr) :
    (binding forms bindings).run ev = Form.binding ev bindings forms := by
  cases bindings <;> try rfl
  rw [binding, Form.binding, run_inScope, run_bind, run_forM]
  simp only [run_bindOne, run_foldlM, run_eval]

theorem run_placeName? (place : Expr) : (placeName? place).run ev = Form.placeName? ev place := by
  unfold placeName?
  split
  · rfl
  · rfl
  · rw [run_bind, run_attempt, Form.placeName?]
    · congr 1
      funext value
      rcases value with _ | value
      · rfl
      · cases value <;> rfl
    · assumption
    · assumption

theorem run_assignment (place expr : Expr) :
    (assignment place expr).run ev = Form.assignment ev place expr := by
  rw [assignment, Form.assignment, run_bind, run_placeName?]
  congr 1
  funext name
  cases name with
  | none => rfl
  | some name =>
    simp only [run_bind]
    congr 1
    funext scope
    cases scope with
    | none => rfl
    | some scope =>
      simp only [run_bind, run_eval]
      congr 1
      funext value
      cases value <;> rfl

theorem run_rgb (args : List Expr) :
    (do return .string noLoc (← rgb args) : Course Expr).run ev = Form.rgb ev args := by
  rw [run_bind, rgb, run_bind, run_mapM, bind_assoc, Form.rgb]
  simp only [run_numberOf]
  congr 1
  funext numbers
  rcases numbers with _ | ⟨r, _ | ⟨g, _ | ⟨b, _ | ⟨_, _⟩⟩⟩⟩ <;> rfl

theorem run_setInk (ink : Ink) (arg : Expr) :
    (do setInk ink arg; return .nothing : Course Expr).run ev = Form.setInk ev ink arg := by
  rw [run_bind, setInk, run_bind, run_eval, bind_assoc, Form.setInk]
  congr 1
  funext value
  cases value <;> rfl

theorem run_drawing (builtin : Builtin)
    (shape : Float → Float → Float → Float → Canvas → List DrawCall) (args : List Expr) :
    (do drawing builtin shape args; return .nothing : Course Expr).run ev =
      Form.drawing ev builtin shape args := by
  rw [run_bind, drawing, run_bind, run_mapM, bind_assoc, Form.drawing]
  simp only [run_numberOf]
  congr 1
  funext numbers
  rcases numbers with _ | ⟨a, _ | ⟨b, _ | ⟨c, _ | ⟨d, _ | ⟨_, _⟩⟩⟩⟩⟩ <;> rfl

theorem run_apply (loc : Int) (builtin : Builtin) (args : List Expr) :
    (apply loc builtin args).run ev = builtin.apply ev loc args := by
  unfold apply
  split
  · exact run_arithmetic ev ..
  · exact run_comparison ev ..
  · exact run_equality ev ..
  · exact run_choice ev ..
  · exact run_binding ev ..
  · exact run_assignment ev ..
  · exact run_loop ev ..
  · exact run_rgb ev ..
  · exact run_setInk ev ..
  · rfl
  · exact run_drawing ev ..
  · exact run_drawing ev ..
  · rw [Builtin.apply] <;> first | rfl | assumption

/-- A call is its course carried out, whatever evaluates the arguments. -/
theorem run_call (loc : Int) (elements : List Expr) :
    (call loc elements).run ev = Sketch.call ev loc elements := by
  unfold call
  split
  · rfl
  · rfl
  · unfold Sketch.call
    split
    · next unknown => simp only [unknown]; rfl
    · next known => simp only [known]; rfl
    · next builtin usable known =>
      simp only [known]
      split
      · exact run_apply ev ..
      · rfl
  · rw [Sketch.call] <;> first | rfl | assumption

end Run

end Course

end Sketch
