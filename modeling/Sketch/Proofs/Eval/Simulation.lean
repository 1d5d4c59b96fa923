import Mathlib.Data.List.Forall2
import Sketch.Proofs.Eval.Names

/-! Two evaluations side by side. A simulation relates the expressions, the values and the machines
of both; if every single step keeps machines related, then related calls end alike. The relation
between machines may depend on how many scopes the evaluations have opened so far. -/
namespace Sketch

/-- The same constructor on both sides, up to locations and elements. -/
inductive Expr.Paired (loc : Int → Int → Prop) (element : Expr → Expr → Prop) :
    Expr → Expr → Prop where
  | nothing : loc noLoc noLoc → Paired loc element .nothing .nothing
  | number : loc l l' → Paired loc element (.number l x) (.number l' x)
  | string : loc l l' → Paired loc element (.string l s) (.string l' s)
  | boolean : loc l l' → Paired loc element (.boolean l b) (.boolean l' b)
  | symbol : loc l l' → Paired loc element (.symbol l name) (.symbol l' name)
  | list : loc l l' → List.Forall₂ element es es' → Paired loc element (.list l es) (.list l' es')

/-- Values that no form can tell apart. -/
abbrev Expr.Matched : Expr → Expr → Prop := Expr.Paired (fun _ _ => True) fun _ _ => True

theorem Expr.Paired.loc {loc : Int → Int → Prop} {element : Expr → Expr → Prop} {e e' : Expr}
    (paired : Expr.Paired loc element e e') : loc e.loc e'.loc := by
  cases paired <;> assumption

/-- Related lists that call the same built-in. -/
def Calls (expr : Expr → Expr → Prop) (builtin : Builtin) (args args' : List Expr) : Prop :=
  ∃ l l' h h', expr (.list l (.symbol h builtin.name :: args))
    (.list l' (.symbol h' builtin.name :: args'))

/-- The name that a place stands for, written there or found as a value. -/
def Designates (value : Expr → Expr → Prop) (place : Expr) (name : Bytes) : Prop :=
  (∃ l, place = .symbol l name) ∨ ∃ l l', value (.symbol l name) (.symbol l' name)

/-- Faults that no form fails with among such values: how deep lists are nested is not up to the
forms, and some faults take a value of a certain kind. -/
inductive Fault.Absent (value : Expr → Expr → Prop) : Fault → Prop where
  | tooDeep : Absent value .tooDeep
  | choice : (∀ v w, value v w → v.kind = got → v.truth? = none → v = .nothing) →
    Absent value (.badCondition .choice got)
  | loop : (∀ v w, value v w → v.kind = got → v.truth? ≠ none) →
    Absent value (.badCondition .loop got)
  | equality : (∀ v w, value v w → v.kind = got → v.truth? = none → v = .nothing) →
    Absent value (.equalityOf got)

/-- What two evaluations have in common, and that each single step keeps it. -/
structure Simulation where
  loc : Int → Int → Prop
  expr : Expr → Expr → Prop
  value : Expr → Expr → Prop
  /-- What an evaluation may fail with. -/
  fault : Fault → Prop
  /-- Machines inside so many scopes that the evaluations opened themselves. -/
  machine : Nat → Machine → Machine → Prop
  paired : ∀ {e e'}, expr e e' → Expr.Paired loc expr e e'
  text : ∀ {e e'}, expr e e' → e.text = e'.text
  matched : ∀ {v w}, value v w → Expr.Matched v w
  literal : ∀ {e e'}, expr e e' → e.kind ≠ .symbol → e.kind ≠ .list → value e e'
  truth : ∀ {l l' name} b, expr (.symbol l name) (.symbol l' name) →
    value (.boolean l b) (.boolean l' b)
  nothing : value .nothing .nothing
  number : ∀ x, value (.number noLoc x) (.number noLoc x)
  string : ∀ s, value (.string noLoc s) (.string noLoc s)
  boolean : ∀ b, value (.boolean noLoc b) (.boolean noLoc b)
  faults : ∀ {f}, ¬ f.Absent value → fault f
  lookup : ∀ {k m n l l' name}, expr (.symbol l name) (.symbol l' name) → machine k m n →
    value (Scopes.lookup m.scopes name) (Scopes.lookup n.scopes name)
  enterScope : ∀ {k m n}, machine k m n → machine (k + 1) m.enterScope n.enterScope
  exitScope : ∀ {k m n}, machine (k + 1) m n → machine k m.exitScope n.exitScope
  bind : ∀ {k m n v w} name, value v w → v ≠ .nothing → machine (k + 1) m n →
    machine (k + 1) (after (assign 0 name v) m) (after (assign 0 name w) n)
  owner : ∀ {k m n place e place' e' name}, Calls expr .assignment [place, e] [place', e'] →
    Designates value place name → machine k m n →
    (Scopes.owner? m.scopes name).isSome = (Scopes.owner? n.scopes name).isSome
  assign : ∀ {k m n place e place' e' name i j v w},
    Calls expr .assignment [place, e] [place', e'] → Designates value place name →
    Scopes.owner? m.scopes name = some i → Scopes.owner? n.scopes name = some j →
    value v w → v ≠ .nothing → machine k m n →
    machine k (after (assign i name v) m) (after (assign j name w) n)
  setColour : ∀ {k m n ink args args'} colour,
    Calls expr (.setInk ink) args args' ∨ Calls expr (.clearInk ink) args args' →
    machine k m n → machine k (after (setColour ink colour) m) (after (setColour ink colour) n)
  rect : ∀ {k m n args args'} x y w h, Calls expr .rect args args' → machine k m n →
    machine k (after (draw fun canvas => canvas.rect x y w h) m)
      (after (draw fun canvas => canvas.rect x y w h) n)
  line : ∀ {k m n args args'} x₁ y₁ x₂ y₂, Calls expr .line args args' → machine k m n →
    machine k (after (draw fun canvas => canvas.line x₁ y₁ x₂ y₂) m)
      (after (draw fun canvas => canvas.line x₁ y₁ x₂ y₂) n)

namespace Simulation

variable (S : Simulation)

/-- Both evaluations fail alike, or are stuck on the same missing operand. -/
inductive Halts : Halt → Halt → Prop where
  | error : S.fault f → S.loc l l' → Halts (.error ⟨f, l⟩) (.error ⟨f, l'⟩)
  | stuck : S.expr .nothing .nothing → Halts .stuck .stuck

inductive Ends (k : Nat) {α β : Type} (value : α → β → Prop) :
    EStateM.Result Halt Machine α → EStateM.Result Halt Machine β → Prop where
  | ok : value v w → S.machine k m n → Ends k value (.ok v m) (.ok w n)
  | error : S.Halts h h' → S.machine k m n → Ends k value (.error h m) (.error h' n)

/-- From related machines both programs end alike. -/
def Agree (k : Nat) {α β : Type} (value : α → β → Prop) (x : EvalM α) (y : EvalM β) : Prop :=
  ∀ m n, S.machine k m n → S.Ends k value (x m) (y n)

variable {S} {k : Nat} {α β γ δ : Type}

theorem agree_imp {value value' : α → β → Prop} {x : EvalM α} {y : EvalM β}
    (weaker : ∀ v w, value v w → value' v w) (agreed : S.Agree k value x y) :
    S.Agree k value' x y := by
  intro m n machines
  have ended := agreed m n machines
  generalize x m = r at ended
  generalize y n = r' at ended
  cases ended with
  | ok related machines => exact .ok (weaker _ _ related) machines
  | error halts machines => exact .error halts machines

theorem agree_pure {value : α → β → Prop} {v : α} {w : β} (related : value v w) :
    S.Agree k value (pure v) (pure w) :=
  fun _ _ machines => .ok related machines

theorem agree_fail {value : α → β → Prop} {f : Fault} {l l' : Int} (arises : ¬ f.Absent S.value)
    (located : S.loc l l') : S.Agree k value (fail f l) (fail f l') :=
  fun _ _ machines => .error (.error (S.faults arises) located) machines

theorem agree_stuck {value : α → β → Prop} (missing : S.expr .nothing .nothing) :
    S.Agree k value stuck stuck :=
  fun _ _ machines => .error (.stuck missing) machines

/-- What comes later starts where both first parts ended. -/
theorem ends_bind {value : α → β → Prop} {result : γ → δ → Prop} {x : EvalM α} {y : EvalM β}
    {f : α → EvalM γ} {g : β → EvalM δ} {m n : Machine} (first : S.Ends k value (x m) (y n))
    (later : ∀ v w m' n', x m = .ok v m' → y n = .ok w n' → value v w → S.machine k m' n' →
      S.Ends k result (f v m') (g w n')) :
    S.Ends k result ((x >>= f) m) ((y >>= g) n) := by
  simp only [Bind.bind, EStateM.bind]
  generalize run : x m = r at first
  generalize run' : y n = r' at first
  cases first with
  | ok related machines => exact later _ _ _ _ run run' related machines
  | error halts machines => exact .error halts machines

theorem agree_bind {value : α → β → Prop} {result : γ → δ → Prop} {x : EvalM α} {y : EvalM β}
    {f : α → EvalM γ} {g : β → EvalM δ} (first : S.Agree k value x y)
    (later : ∀ v w, value v w → S.Agree k result (f v) (g w)) :
    S.Agree k result (x >>= f) (y >>= g) :=
  fun m n machines => ends_bind (first m n machines) fun v w m' n' _ _ related machines =>
    later v w related m' n' machines

theorem agree_mapM {X : α → β → Prop} {V : γ → δ → Prop} {f : α → EvalM γ} {g : β → EvalM δ}
    {xs : List α} {ys : List β} (related : List.Forall₂ X xs ys)
    (each : ∀ x y, X x y → S.Agree k V (f x) (g y)) :
    S.Agree k (fun vs ws => List.Forall₂ V vs ws ∧ vs.length = xs.length) (xs.mapM f)
      (ys.mapM g) := by
  induction related with
  | nil =>
    rw [List.mapM_nil, List.mapM_nil]
    exact agree_pure ⟨.nil, rfl⟩
  | cons first _ ih =>
    rw [List.mapM_cons, List.mapM_cons]
    refine agree_bind (each _ _ first) fun v w one => ?_
    refine agree_bind ih fun vs ws rest => ?_
    exact agree_pure ⟨.cons one rest.1, by simp [rest.2]⟩

theorem agree_foldlM {X : α → β → Prop} {V : γ → δ → Prop} {f : γ → α → EvalM γ}
    {g : δ → β → EvalM δ} {xs : List α} {ys : List β} (related : List.Forall₂ X xs ys)
    (each : ∀ v w x y, V v w → X x y → S.Agree k V (f v x) (g w y)) {v : γ} {w : δ}
    (start : V v w) : S.Agree k V (xs.foldlM f v) (ys.foldlM g w) := by
  induction related generalizing v w with
  | nil => exact agree_pure start
  | cons first _ ih =>
    rw [List.foldlM_cons, List.foldlM_cons]
    exact agree_bind (each _ _ _ _ start first) fun v w next => ih next

theorem agree_forM {X : α → β → Prop} {f : α → EvalM Unit} {g : β → EvalM Unit} {xs : List α}
    {ys : List β} (related : List.Forall₂ X xs ys)
    (each : ∀ x y, X x y → S.Agree k (fun _ _ => True) (f x) (g y)) :
    S.Agree k (fun _ _ => True) (xs.forM f) (ys.forM g) := by
  induction related with
  | nil => exact agree_pure trivial
  | cons first _ ih => exact agree_bind (each _ _ first) fun _ _ _ => ih

/-- An error that is caught is caught on both sides. -/
theorem agree_attempt {value : α → β → Prop} {x : EvalM α} {y : EvalM β}
    (tried : S.Agree k value x y) :
    S.Agree k (Option.Rel value) (attempt x) (attempt y) := by
  intro m n machines
  have ended := tried m n machines
  unfold attempt
  generalize x m = r at ended
  generalize y n = r' at ended
  cases ended with
  | ok related machines => exact .ok (.some related) machines
  | error halts machines =>
    cases halts with
    | error _ _ => exact .ok .none machines
    | stuck missing => exact .error (.stuck missing) machines

theorem agree_inScope {value : α → β → Prop} {x : EvalM α} {y : EvalM β}
    (inner : S.Agree (k + 1) value x y) : S.Agree k value (inScope x) (inScope y) := by
  intro m n machines
  have ended := inner _ _ (S.enterScope machines)
  unfold inScope
  generalize x m.enterScope = r at ended
  generalize y n.enterScope = r' at ended
  cases ended with
  | ok related machines => exact .ok related (S.exitScope machines)
  | error halts machines => exact .error halts (S.exitScope machines)

end Simulation

end Sketch
