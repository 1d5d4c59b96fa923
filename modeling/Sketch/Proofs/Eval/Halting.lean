import Sketch.Proofs.Eval.Inner
import Sketch.Proofs.Eval.Related
import Sketch.Session

/-! How an evaluation can end early. An error is located at a node of the expression, whatever is
bound in the scopes; stuck it gets only on a node that is missing, and too deep only where more
lists are nested than there is room for. -/
namespace Sketch

/-- Whatever machine it starts from, it ends early only in an allowed way. -/
def HaltsOnly (allowed : Halt → Prop) {α : Type} (x : EvalM α) : Prop :=
  ∀ m halt n, x m = .error halt n → allowed halt

theorem HaltsOnly.pure {allowed : Halt → Prop} {α : Type} (value : α) :
    HaltsOnly allowed (Pure.pure value : EvalM α) :=
  fun _ _ _ ended => nomatch ended

/-- Tracing adds no way to end. -/
theorem HaltsOnly.traced {allowed : Halt → Prop} {body : EvalM Expr}
    (halts : HaltsOnly allowed body) (tracing : Bool) (level : Int) (list : Expr) :
    HaltsOnly allowed (Sketch.traced tracing level list body) := by
  cases tracing with
  | false => exact halts
  | true =>
    intro m halt n ended
    simp only [Sketch.traced, ↓reduceIte] at ended
    cases run : body (m.record (.enter level list)) with
    | ok value final => simp [run] at ended
    | error cause final =>
      have allowedCause := halts _ cause final run
      cases cause with
      | error | stuck =>
        rw [run] at ended
        cases ended
        exact allowedCause

theorem evalTop_eq_error {tracing : Bool} {level : Int} {e : Expr} {m : Machine} {halt : Halt} :
    (evalTop tracing level e m).1 = .error halt ↔ ∃ n, eval tracing level e m = .error halt n := by
  unfold evalTop
  cases eval tracing level e m <;> simp

/-- What the end of an evaluation can be blamed on: a fault at one of the nodes, or a node that is
missing. -/
inductive Blame (nodes : List Expr) (fault : Fault → Prop) : Halt → Prop where
  | error {f : Fault} {node : Expr} (allowed : fault f) (among : node ∈ nodes) :
      Blame nodes fault (.error ⟨f, node.loc⟩)
  | stuck (missing : .nothing ∈ nodes) : Blame nodes fault .stuck

theorem Expr.Paired.self {loc : Int → Int → Prop} {element : Expr → Expr → Prop} {e : Expr}
    (located : loc e.loc e.loc)
    (elements : ∀ l es, e = .list l es → ∀ element' ∈ es, element element' element') :
    Expr.Paired loc element e e := by
  cases e with
  | nothing => exact .nothing located
  | number => exact .number located
  | string => exact .string located
  | boolean => exact .boolean located
  | symbol => exact .symbol located
  | list l es => exact .list located (List.forall₂_same.2 (elements l es rfl))

/-- One evaluation beside itself, of expressions made of these nodes. Values are not looked into, so
nothing in a scope can be to blame. -/
def Simulation.alone (nodes : List Expr) (fault : Fault → Prop)
    (faults : ∀ {f}, f ≠ .tooDeep → fault f) : Simulation where
  loc l l' := l = l' ∧ ∃ node ∈ nodes, node.loc = l
  expr e e' := e = e' ∧ e.nodes ⊆ nodes
  value := Eq
  fault := fault
  machine _ := Eq
  paired := by
    rintro e _ ⟨rfl, among⟩
    refine .self ⟨rfl, e, among e.mem_nodes_self, rfl⟩ ?_
    rintro l es rfl element member
    refine ⟨rfl, fun node inner => among ?_⟩
    exact List.mem_cons_of_mem _ (Expr.nodes_subset_insideAll member inner)
  text same := congrArg Expr.text same.1
  matched := by
    rintro v _ rfl
    exact .self trivial fun _ _ _ _ _ => trivial
  literal same _ _ := same.1
  truth b same := by rw [(Expr.symbol.inj same.1).1]
  nothing := rfl
  number _ := rfl
  string _ := rfl
  boolean _ := rfl
  faults arises := faults fun deep => arises (deep ▸ .tooDeep)
  lookup _ same := by rw [same]
  enterScope same := by rw [same]
  exitScope same := by rw [same]
  bind _ value _ same := by rw [value, same]
  owner _ _ same := by rw [same]
  assign _ _ chosen chosen' value _ same := by
    subst same value
    rw [chosen] at chosen'
    rw [Option.some.inj chosen']
  setColour _ _ same := by rw [same]
  rect _ _ _ _ _ same := by rw [same]
  line _ _ _ _ _ same := by rw [same]

section

variable {nodes : List Expr} {fault : Fault → Prop} (faults : ∀ {f}, f ≠ .tooDeep → fault f)
include faults

theorem agree_alone_iff {k : Nat} {α : Type} {x : EvalM α} :
    (Simulation.alone nodes fault faults).Agree k Eq x x ↔ HaltsOnly (Blame nodes fault) x := by
  constructor
  · intro agreed m halt n ended
    have same := agreed m m rfl
    rw [ended] at same
    cases same with
    | error halts _ =>
      cases halts with
      | error allowed located =>
        obtain ⟨-, node, member, rfl⟩ := located
        exact .error allowed member
      | stuck missing => exact .stuck (missing.2 Expr.nothing.mem_nodes_self)
  · rintro halts m _ rfl
    cases ended : x m with
    | ok value n => exact .ok rfl rfl
    | error halt n =>
      refine .error ?_ rfl
      cases halts m halt n ended with
      | error allowed member => exact .error allowed ⟨rfl, _, member, rfl⟩
      | stuck missing => exact .stuck ⟨rfl, by simpa [Expr.nodes, Expr.inside] using missing⟩

theorem haltsOnly_call {ev : Evaluator} {loc : Int} {elements : List Expr}
    (each : ∀ e, e.nodes ⊆ nodes → HaltsOnly (Blame nodes fault) (ev e))
    (names : ∀ e, Keeps SameNames (ev e)) (among : (Expr.list loc elements).nodes ⊆ nodes) :
    HaltsOnly (Blame nodes fault) (call ev loc elements) := by
  have both : (Simulation.alone nodes fault faults).Evaluators ev ev := by
    refine ⟨fun {k e e'} same => ?_, names, names⟩
    obtain ⟨rfl, inner⟩ := same
    exact (agree_alone_iff faults).2 (each e inner)
  exact (agree_alone_iff faults (k := 0)).1 (Simulation.agree_call both ⟨rfl, among⟩)

theorem haltsOnly_atom {e : Expr} (among : e.nodes ⊆ nodes) (atom : e.kind ≠ .list)
    (tracing : Bool) (room : Nat) (level : Int) :
    HaltsOnly (Blame nodes fault) (evalWithin tracing room level e) :=
  (agree_alone_iff faults (k := 0)).1 (Simulation.agree_atom _ _ _ _ _ _ ⟨rfl, among⟩ atom)

/-- Any evaluation halts only with what its nodes can be blamed for; too deep it is only if there is
less room than lists nested in one another. -/
theorem haltsOnly_evalWithin (tracing : Bool) {room : Nat} (level : Int) {e : Expr}
    (deep : fault .tooDeep ∨ e.depth ≤ room) (among : e.nodes ⊆ nodes) :
    HaltsOnly (Blame nodes fault) (evalWithin tracing room level e) := by
  induction room generalizing level e with
  | zero =>
    cases e with
    | nothing | number | string | boolean | symbol => exact haltsOnly_atom faults among nofun _ _ _
    | list loc elements =>
      have allowed : fault .tooDeep := deep.resolve_right (by simp [Expr.depth])
      refine HaltsOnly.traced (fun m halt n ended => ?_) tracing level _
      cases ended
      exact .error allowed (among (Expr.mem_nodes_self _))
  | succ room ih =>
    cases e with
    | nothing | number | string | boolean | symbol => exact haltsOnly_atom faults among nofun _ _ _
    | list loc elements =>
      refine HaltsOnly.traced ?_ tracing level _
      rw [← call_upTo]
      refine haltsOnly_call faults (fun e inner => ?_) (fun e => ?_) among
      · unfold Evaluator.upTo
        split
        · next shallow =>
          rw [Expr.depth] at deep
          exact ih (level + 1) (deep.imp_right fun fits => by omega) inner
        · exact .pure _
      · unfold Evaluator.upTo
        split
        · exact lasting_sameNames.evalWithin tracing room (level + 1) e
        · exact lasting_sameNames.pure _

/-- What goes wrong in one evaluation at top level is to be blamed on its expression. -/
theorem blame_of_evalTop {tracing : Bool} {level : Int} {e : Expr} {m : Machine} {halt : Halt}
    (deep : fault .tooDeep ∨ level + e.depth ≤ maxDepth)
    (halted : (evalTop tracing level e m).1 = .error halt) : Blame e.nodes fault halt := by
  obtain ⟨n, ended⟩ := evalTop_eq_error.1 halted
  have room : fault .tooDeep ∨ e.depth ≤ (maxDepth - level).toNat :=
    deep.imp_right fun fits => by omega
  exact haltsOnly_evalWithin faults tracing level room (List.Subset.refl _) m halt n ended

end

theorem loc_of_evalTop {tracing : Bool} {level : Int} {e : Expr} {m : Machine} {err : EvalError}
    (failed : (evalTop tracing level e m).1 = .error (.error err)) :
    ∃ node ∈ e.nodes, err.loc = node.loc := by
  have blamed : Blame e.nodes (fun _ => True) (.error err) :=
    blame_of_evalTop (fun _ => trivial) (.inl trivial) failed
  cases blamed with
  | error _ among => exact ⟨_, among, rfl⟩

/-- What comes later starts where the first one ended. -/
theorem mapM_cons_apply {σ α β : Type} (f : α → StateM σ β) (a : α) (rest : List α) (s : σ) :
    (a :: rest).mapM f s = ((f a s).1 :: (rest.mapM f (f a s).2).1, (rest.mapM f (f a s).2).2) := by
  rw [List.mapM_cons]
  rfl

/-- Every outcome of a run is that of its own expression, evaluated on some machine. -/
theorem forall₂_run (tracing : Bool) (program : List Expr) (m : Machine) :
    List.Forall₂ (fun outcome e => ∃ n, (evalTop tracing 0 e n).1 = outcome)
      (run tracing program m).1 program := by
  unfold run
  induction program generalizing m with
  | nil => exact .nil
  | cons e rest ih =>
    rw [List.mapM_cons]
    exact .cons ⟨m, rfl⟩ (ih _)

theorem exists_getElem?_of_forall₂ {α β : Type} {R : α → β → Prop} {xs : List α} {ys : List β}
    (related : List.Forall₂ R xs ys) {i : Nat} {x : α} (found : xs[i]? = some x) :
    ∃ y, ys[i]? = some y ∧ R x y := by
  obtain ⟨length, each⟩ := List.forall₂_iff_get.1 related
  obtain ⟨inside, rfl⟩ := List.getElem?_eq_some_iff.1 found
  have inside' : i < ys.length := length ▸ inside
  exact ⟨ys[i], List.getElem?_eq_getElem inside', each i inside inside'⟩

theorem mem_outcomes_run {tracing : Bool} {program : List Expr} {m : Machine} {outcome : Outcome}
    (member : outcome ∈ (run tracing program m).1) :
    ∃ e ∈ program, ∃ n, (evalTop tracing 0 e n).1 = outcome := by
  obtain ⟨i, found⟩ := List.mem_iff_getElem?.1 member
  obtain ⟨e, at_i, ran⟩ := exists_getElem?_of_forall₂ (forall₂_run tracing program m) found
  exact ⟨e, List.mem_of_getElem? at_i, ran⟩

/-- The outcomes of an execution are those of the program that was read. -/
theorem mem_outcomes_execute {tracing : Bool} {source : Bytes} {m : Machine} {outcome : Outcome}
    (member : outcome ∈ (execute tracing source m).1.outcomes) :
    ∃ program, (read source).program = .ok program ∧
      outcome ∈ (run tracing program { m with log := [] }).1 := by
  unfold execute at member
  cases accepted : (read source).program with
  | error errors =>
    rw [accepted] at member
    cases member
  | ok program =>
    rw [accepted] at member
    exact ⟨program, rfl, member⟩

end Sketch
