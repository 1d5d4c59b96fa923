import Sketch.Proofs.Eval.Deeds
import Sketch.Proofs.Eval.Related

/-! The first failure ends an evaluation. Once anything inside an expression has failed, all that is
left to do is to leave the scopes that are still open and to hand the failure on, list by list, up
to the expression itself. A failure is handed on as it is; only that of the place of an assignment
is told in other words. -/
namespace Sketch

/-- How the halt of one expression makes the list around it halt. -/
inductive Passes : Expr → Halt → Expr → Halt → Prop where
  | same {e list : Expr} {cause : Halt} : Passes e cause list cause
  | place {place expr : Expr} {e : EvalError} {loc headLoc : Int} : place.kind ≠ .symbol →
    Passes place (.error e) (.list loc [.symbol headLoc (bytes "set"), place, expr])
      (.error ⟨.unboundPlace, place.loc⟩)

/-- Deeds that only hand on the halt of one expression up to another. -/
inductive Unwinds : Expr → Halt → List Deed → Expr → Halt → Prop where
  | nil : Unwinds e cause [] e cause
  | exitScope : Unwinds e cause rest e' cause' →
    Unwinds e cause (.act .exitScope :: rest) e' cause'
  | finish : Passes e cause outer halt → Unwinds outer halt rest e' cause' →
    Unwinds e cause (.finish level outer (.error halt) :: rest) e' cause'

namespace Unwinds

variable {e e' inner : Expr} {cause cause' halt : Halt} {rest more : List Deed}

theorem append (first : Unwinds e cause rest inner halt)
    (later : Unwinds inner halt more e' cause') : Unwinds e cause (rest ++ more) e' cause' := by
  induction first with
  | nil => exact later
  | exitScope _ ih => exact .exitScope (ih later)
  | finish passes _ ih => exact .finish passes (ih later)

/-- From any failure on the way it goes on as from the first. -/
theorem drop {before : List Deed} {level : Int}
    (unwinds : Unwinds e cause (before ++ .finish level inner (.error halt) :: rest) e' cause') :
    Unwinds inner halt rest e' cause' := by
  induction before generalizing e cause with
  | nil =>
    cases unwinds with
    | finish _ later => exact later
  | cons deed before ih =>
    cases unwinds with
    | exitScope later => exact ih later
    | finish _ later => exact ih later

end Unwinds

namespace Course

variable {α β : Type}

/-- Nothing is left to do but to leave scopes and to halt. -/
inductive Ends (cause : Halt) : Course α → Prop where
  | halt : Ends cause (.halt cause)
  | exitScope : Ends cause next → Ends cause (.act .exitScope next)

/-- The course ends as soon as anything that it asks fails. -/
inductive Stops (P : Expr → Halt → Halt → Prop) : Course α → Prop where
  | done : Stops P (.done value)
  | halt : Stops P (.halt cause)
  | look : (∀ scopes, Stops P (next scopes)) → Stops P (.look next)
  | act : Stops P next → Stops P (.act step next)
  | ask : (∀ value, Stops P (next (.ok value))) →
    (∀ cause, ∃ halt, P e cause halt ∧ Ends halt (next (.error cause))) → Stops P (.ask e next)

theorem Ends.bind {cause : Halt} {x : Course α} (ends : x.Ends cause) (f : α → Course β) :
    (x >>= f).Ends cause := by
  induction ends with
  | halt => exact .halt
  | exitScope _ ih => exact .exitScope ih

theorem Ends.leaving {cause : Halt} {x : Course α} (ends : x.Ends cause) :
    x.leaving.Ends cause := by
  induction ends with
  | halt => exact .exitScope .halt
  | exitScope _ ih => exact .exitScope ih

namespace Stops

variable {P : Expr → Halt → Halt → Prop}

theorem bind {x : Course α} {f : α → Course β} (first : x.Stops P)
    (later : ∀ value, (f value).Stops P) : (x >>= f).Stops P := by
  induction first with
  | done => exact later _
  | halt => exact .halt
  | look _ ih => exact .look ih
  | act _ ih => exact .act ih
  | ask _ failing ih =>
    refine .ask ih fun cause => ?_
    obtain ⟨halt, passes, ends⟩ := failing cause
    exact ⟨halt, passes, ends.bind f⟩

theorem leaving {x : Course α} (stops : x.Stops P) : x.leaving.Stops P := by
  induction stops with
  | done => exact .act .done
  | halt => exact .act .halt
  | look _ ih => exact .look ih
  | act _ ih => exact .act ih
  | ask _ failing ih =>
    refine .ask ih fun cause => ?_
    obtain ⟨halt, passes, ends⟩ := failing cause
    exact ⟨halt, passes, ends.leaving⟩

theorem mapM {f : β → Course α} (each : ∀ b, (f b).Stops P) (list : List β) :
    (list.mapM f).Stops P := by
  induction list with
  | nil => exact .done
  | cons b rest ih =>
    rw [List.mapM_cons]
    exact (each b).bind fun _ => ih.bind fun _ => .done

theorem foldlM {f : α → β → Course α} (each : ∀ a b, (f a b).Stops P) (list : List β) (start : α) :
    (list.foldlM f start).Stops P := by
  induction list generalizing start with
  | nil => exact .done
  | cons b rest ih =>
    rw [List.foldlM_cons]
    exact (each start b).bind fun next => ih next

theorem forM {f : β → Course Unit} (each : ∀ b, (f b).Stops P) (list : List β) :
    (list.forM f).Stops P := by
  induction list with
  | nil => exact .done
  | cons b rest ih => exact (each b).bind fun _ => ih

theorem repeatWhile {test : Course Bool} {body exceeded : Course Unit} (tested : test.Stops P)
    (ran : body.Stops P) (ended : exceeded.Stops P) (rounds : Nat) :
    (Course.repeatWhile test body exceeded rounds).Stops P := by
  induction rounds with
  | zero =>
    refine tested.bind fun holds => ?_
    split
    · exact ended
    · exact .done
  | succ rounds ih =>
    refine tested.bind fun holds => ?_
    split
    · exact ran.bind fun _ => ih
    · exact .done

theorem chained (rel : Relation) (arg left : Expr) (rest : List (Expr × Expr)) :
    (Course.chained rel arg left rest).Stops P := by
  induction rest generalizing arg left with
  | nil => exact .done
  | cons next rest ih =>
    unfold Course.chained
    split
    · split
      · exact ih _ _
      · exact .done
    · exact .halt

variable (same : ∀ e cause, P e cause cause)
include same

theorem eval (e : Expr) : (Course.eval e).Stops P :=
  .ask (fun _ => .done) fun cause => ⟨cause, same e cause, .halt⟩

theorem numberOf (builtin : Builtin) (arg : Expr) : (Course.numberOf builtin arg).Stops P := by
  refine (eval same arg).bind fun value => ?_
  split
  · exact .done
  · exact .halt

theorem operate (op : Operation) (x : Float) (arg : Expr) : (Course.operate op x arg).Stops P := by
  refine (numberOf same _ arg).bind fun y => ?_
  split
  · exact .halt
  · exact .done

theorem arithmetic (op : Operation) (args : List Expr) : (Course.arithmetic op args).Stops P := by
  unfold Course.arithmetic
  split
  · exact .done
  · exact operate same ..
  · exact (numberOf same ..).bind fun x => foldlM (operate same op) _ x

theorem comparison (rel : Relation) (args : List Expr) : (Course.comparison rel args).Stops P := by
  refine (mapM (eval same) args).bind fun values => ?_
  split
  · exact chained ..
  · exact .halt

theorem equality (args : List Expr) : (Course.equality args).Stops P := by
  have comparand (entry : Expr × Nat) : (Course.comparand entry).Stops P := by
    refine (eval same entry.1).bind fun value => ?_
    split
    · exact .halt
    · exact .done
  refine (mapM comparand _).bind fun values => ?_
  split
  · split
    · exact .halt
    · exact .halt
    · exact .done
  · exact .halt

theorem choice (condition yes no : Expr) : (Course.choice condition yes no).Stops P := by
  refine (eval same condition).bind fun value => ?_
  split
  · exact .halt
  split
  · exact .halt
  refine (eval same _).bind fun result => ?_
  split
  · exact .halt
  · exact .done

theorem loop (loc : Int) (condition : Expr) (forms : List Expr) :
    (Course.loop loc condition forms).Stops P := by
  refine repeatWhile ?_ (forM (fun form => (eval same form).bind fun _ => .done) forms) .halt _
  refine (eval same condition).bind fun value => ?_
  split
  · exact .halt
  · exact .done

theorem binding (forms : List Expr) (bindings : Expr) :
    (Course.binding forms bindings).Stops P := by
  have bindOne (bound : Expr) : (Course.bindOne bound).Stops P := by
    unfold Course.bindOne
    split
    · refine (eval same _).bind fun value => ?_
      split
      · exact .halt
      · exact .act .done
    · exact .halt
    · exact .halt
    · exact .halt
  unfold Course.binding
  split
  · exact .act (leaving ((forM bindOne _).bind fun _ => foldlM (fun _ => eval same) _ _))
  · exact .halt
  · exact .halt

theorem rgb (args : List Expr) : (Course.rgb args).Stops P := by
  refine (mapM (numberOf same _) args).bind fun numbers => ?_
  split
  · exact .done
  · exact .halt

theorem setInk (ink : Ink) (arg : Expr) : (Course.setInk ink arg).Stops P := by
  refine (eval same arg).bind fun value => ?_
  split
  · exact .act .done
  · exact .halt

theorem drawing (builtin : Builtin)
    (shape : Float → Float → Float → Float → Canvas → List DrawCall) (args : List Expr) :
    (Course.drawing builtin shape args).Stops P := by
  refine (mapM (numberOf same _) args).bind fun numbers => ?_
  split
  · exact .act .done
  · exact .halt

/-- A place that has to be evaluated and fails names nothing, whatever its own error was. -/
theorem assignment {place expr : Expr}
    (placed : place.kind ≠ .symbol → ∀ e, P place (.error e) (.error ⟨.unboundPlace, place.loc⟩)) :
    (Course.assignment place expr).Stops P := by
  have named {f : Option Bytes → Course Expr} (unbound : f none = fail .unboundPlace place.loc)
      (bound : ∀ name, (f (some name)).Stops P) : (placeName? place >>= f).Stops P := by
    have stops : (f none).Stops P := by rw [unbound]; exact .halt
    have ends : (f none).Ends (.error ⟨.unboundPlace, place.loc⟩) := by rw [unbound]; exact .halt
    unfold placeName?
    split
    · exact bound _
    · exact .halt
    · next symbol _ =>
      have computed : place.kind ≠ .symbol := by
        intro isSymbol
        cases place <;> simp_all [Expr.kind]
      refine .ask (fun value => ?_) fun cause => ?_
      · cases value with
        | symbol loc name => exact bound name
        | _ => exact stops
      · cases cause with
        | error e => exact ⟨_, placed computed e, ends⟩
        | stuck => exact ⟨_, same _ _, .halt⟩
  refine named rfl fun name => ?_
  refine Stops.bind (.look fun _ => .done) fun scope => ?_
  split
  · refine (eval same expr).bind fun value => ?_
    split
    · exact .halt
    · exact .act .done
  · exact .halt

theorem apply {builtin : Builtin} {args : List Expr}
    (placed : ∀ place expr, builtin = .assignment → args = [place, expr] →
      place.kind ≠ .symbol → ∀ e, P place (.error e) (.error ⟨.unboundPlace, place.loc⟩))
    (loc : Int) : (Course.apply loc builtin args).Stops P := by
  unfold Course.apply
  split
  · exact (arithmetic same ..).bind fun _ => .done
  · exact (comparison same ..).bind fun _ => .done
  · exact (equality same _).bind fun _ => .done
  · exact choice same ..
  · exact binding same ..
  · exact assignment same (placed _ _ rfl rfl)
  · exact (loop same ..).bind fun _ => .done
  · exact (rgb same _).bind fun _ => .done
  · exact (setInk same ..).bind fun _ => .done
  · exact .act .done
  · exact (drawing same ..).bind fun _ => .done
  · exact (drawing same ..).bind fun _ => .done
  · exact .halt

omit same

/-- Every list halts as soon as anything inside it does. -/
theorem call (loc : Int) (elements : List Expr) :
    (Course.call loc elements).Stops fun e cause => Passes e cause (.list loc elements) := by
  unfold Course.call
  split
  · exact .halt
  · exact .halt
  · next headLoc name args =>
    split
    · exact .halt
    · exact .halt
    · next builtin _ known =>
      split
      · refine apply (fun _ _ => .same) (fun place expr isAssignment only computed e => ?_) loc
        subst isAssignment only
        rw [Builtin.eq_name_of_ofName? known]
        exact .place computed
      · exact .halt
  · exact .halt

end Stops

/-- All that such a course still does is to leave scopes. -/
theorem Ends.deeds {α : Type} {cause : Halt} {x : Course α} (ends : x.Ends cause)
    (inner : Expr → Machine → List Deed) (ev : Evaluator) (m : Machine) (e : Expr) (handed : Halt) :
    (settle (x.run ev) m).1 = .error cause ∧ Unwinds e handed (x.deeds inner ev m) e handed := by
  induction ends generalizing m with
  | halt => exact ⟨rfl, .nil⟩
  | exitScope _ ih =>
    obtain ⟨halts, unwinds⟩ := ih m.exitScope
    exact ⟨halts, .exitScope unwinds⟩

end Course

def Deed.Failed : Deed → Prop
  | .finish _ _ (.error _) => True
  | .finish _ _ (.ok _) | .start .. | .act _ => False

/-- The first failure among the deeds is that of `inner`. -/
def FirstFailure (inner : Expr) (cause : Halt) (rest deeds : List Deed) : Prop :=
  ∃ before level, deeds = before ++ .finish level inner (.error cause) :: rest ∧
    ∀ deed ∈ before, ¬ deed.Failed

/-- Nothing fails, or else the first failure ends it all. -/
def Abrupt (deeds : List Deed) (e : Expr) : Outcome → Prop
  | .ok _ => ∀ deed ∈ deeds, ¬ deed.Failed
  | .error halt => ∃ inner cause rest, FirstFailure inner cause rest deeds ∧
    Unwinds inner cause rest e halt

theorem FirstFailure.append {inner : Expr} {cause : Halt} {rest deeds : List Deed}
    (first : FirstFailure inner cause rest deeds) (more : List Deed) :
    FirstFailure inner cause (rest ++ more) (deeds ++ more) := by
  obtain ⟨before, level, rfl, clean⟩ := first
  exact ⟨before, level, by simp, clean⟩

theorem FirstFailure.after {inner : Expr} {cause : Halt} {rest deeds before : List Deed}
    (first : FirstFailure inner cause rest deeds) (clean : ∀ deed ∈ before, ¬ deed.Failed) :
    FirstFailure inner cause rest (before ++ deeds) := by
  obtain ⟨earlier, level, rfl, cleanEarlier⟩ := first
  exact ⟨before ++ earlier, level, by simp, List.forall_mem_append.2 ⟨clean, cleanEarlier⟩⟩

/-- Something fails inside `list`, and is handed on to it. -/
def Interrupted (deeds : List Deed) (list : Expr) (halt : Halt) : Prop :=
  ∃ first cause rest last handed, FirstFailure first cause rest deeds ∧
    Unwinds first cause rest last handed ∧ Passes last handed list halt

theorem Interrupted.after {deeds before : List Deed} {list : Expr} {halt : Halt}
    (interrupted : Interrupted deeds list halt) (clean : ∀ deed ∈ before, ¬ deed.Failed) :
    Interrupted (before ++ deeds) list halt := by
  obtain ⟨first, cause, rest, last, handed, failure, others⟩ := interrupted
  exact ⟨first, cause, rest, last, handed, failure.after clean, others⟩

/-- A course that stops where something fails either has no failure inside it, or it halts with what
the first one is handed on as. -/
theorem Course.Stops.deeds {α : Type} {list : Expr} {inner : Expr → Machine → List Deed}
    {ev : Evaluator} (abrupt : ∀ e m, Abrupt (inner e m) e (settle (ev e) m).1) {x : Course α}
    (stops : x.Stops fun e cause => Passes e cause list) (m : Machine) :
    (∀ deed ∈ x.deeds inner ev m, ¬ deed.Failed) ∨
      ∃ halt, Interrupted (x.deeds inner ev m) list halt ∧
        (settle (x.run ev) m).1 = .error halt := by
  induction stops generalizing m with
  | done | halt => exact .inl (by simp [Course.deeds])
  | look _ ih => exact ih m.scopes m
  | @act next step _ ih =>
    have clean : ∀ deed ∈ [Deed.act step], ¬ deed.Failed := by simp [Deed.Failed]
    rcases ih (step.perform m) with none | ⟨halt, interrupted, halts⟩
    · exact .inl (List.forall_mem_append.2 ⟨clean, none⟩)
    · exact .inr ⟨halt, interrupted.after clean, halts⟩
  | @ask next e _ failing ih =>
    have asked := abrupt e m
    simp only [Course.deeds, Course.run]
    show _ ∨ ∃ halt, _ ∧ (settle ((next (settle (ev e) m).1).run ev) (settle (ev e) m).2).1 = _
    generalize settle (ev e) m = result at asked ⊢
    obtain ⟨outcome, n⟩ := result
    cases outcome with
    | ok value =>
      rcases ih value n with none | ⟨halt, interrupted, halts⟩
      · exact .inl (List.forall_mem_append.2 ⟨asked, none⟩)
      · exact .inr ⟨halt, interrupted.after asked, halts⟩
    | error handed =>
      obtain ⟨first, cause, rest, failure, unwinds⟩ := asked
      obtain ⟨halt, passes, ends⟩ := failing handed
      obtain ⟨halts, unwindsMore⟩ := ends.deeds inner ev n e handed
      refine .inr ⟨halt, ⟨first, cause, _, e, handed, failure.append _, ?_, passes⟩, halts⟩
      exact unwinds.append unwindsMore

theorem abrupt_finish {before : List Deed} (clean : ∀ deed ∈ before, ¬ deed.Failed) (level : Int)
    (e : Expr) (outcome : Outcome) : Abrupt (before ++ [.finish level e outcome]) e outcome := by
  cases outcome with
  | ok value => exact List.forall_mem_append.2 ⟨clean, by simp [Deed.Failed]⟩
  | error halt => exact ⟨e, halt, [], ⟨before, level, rfl, clean⟩, .nil⟩

/-- By induction on the room: the deeds of a list are those of its course, and then its end. -/
theorem abrupt_deedsWithin (tracing : Bool) (room : Nat) (level : Int) (e : Expr) (m : Machine) :
    Abrupt (deedsWithin tracing room level e m) e
      (settle (evalWithin tracing room level e) m).1 := by
  have begun : ∀ deed ∈ [Deed.start level e], ¬ deed.Failed := by simp [Deed.Failed]
  induction room generalizing level e m with
  | zero =>
    rw [deedsWithin_simple tracing level fun _ => rfl]
    exact abrupt_finish begun level e _
  | succ room ih =>
    by_cases isList : e.kind = .list
    · cases e with
      | list loc elements =>
        rw [deedsWithin_list, settle_evalWithin_list]
        have inner (e : Expr) (m : Machine) := ih (level + 1) e m (by simp [Deed.Failed])
        rcases (Course.Stops.call loc elements).deeds inner _ with
          clean | ⟨halt, interrupted, halts⟩
        · exact abrupt_finish (List.forall_mem_append.2 ⟨begun, clean⟩) level _ _
        · obtain ⟨first, cause, rest, last, handed, failure, unwinds, passes⟩ :=
            interrupted.after begun
          rw [halts]
          refine ⟨first, cause, _, failure.append _, ?_⟩
          exact unwinds.append (.finish passes .nil)
      | _ => cases isList
    · rw [deedsWithin_simple tracing level fun given => absurd given isList]
      exact abrupt_finish begun level e _

/-- Whatever fails during an evaluation is handed on until the evaluation itself has failed. -/
theorem Abrupt.unwinds {deeds before rest : List Deed} {e inner : Expr} {cause : Halt}
    {outcome : Outcome} {level : Int} (abrupt : Abrupt deeds e outcome)
    (failed : deeds = before ++ .finish level inner (.error cause) :: rest) :
    ∃ halt, outcome = .error halt ∧ Unwinds inner cause rest e halt := by
  subst failed
  cases outcome with
  | ok value => exact absurd trivial (abrupt (.finish level inner (.error cause)) (by simp))
  | error halt =>
    obtain ⟨first, initial, later, ⟨clean, level', split, unfailed⟩, unwinds⟩ := abrupt
    refine ⟨halt, rfl, ?_⟩
    rcases List.append_eq_append_iff.1 split with ⟨between, rfl, tail⟩ | ⟨between, rfl, tail⟩
    · -- nothing has failed before the first failure, so this is the first one
      cases between with
      | nil =>
        cases tail
        exact unwinds
      | cons deed between =>
        cases tail
        exact absurd trivial (unfailed (.finish level inner (.error cause)) (by simp))
    · cases between with
      | nil =>
        cases tail
        exact unwinds
      | cons deed between =>
        cases tail
        exact unwinds.drop

/-- Nothing but open scopes and the trace of failures is different. -/
def Subsides (m n : Machine) : Prop :=
  n.scopes <:+ m.scopes ∧ n.canvas = m.canvas ∧
    ∃ leaves, n.log = leaves ++ m.log ∧ ∀ event ∈ leaves, ∃ level e, event = .leave level (.error e)

theorem Subsides.refl (m : Machine) : Subsides m m :=
  ⟨List.suffix_refl _, rfl, [], rfl, by simp⟩

theorem Subsides.trans {a b c : Machine} (first : Subsides a b) (later : Subsides b c) :
    Subsides a c := by
  obtain ⟨scopes, canvas, leaves, log, failures⟩ := first
  obtain ⟨scopes', canvas', leaves', log', failures'⟩ := later
  refine ⟨scopes'.trans scopes, canvas'.trans canvas, leaves' ++ leaves, ?_, ?_⟩
  · rw [log', log, List.append_assoc]
  · exact List.forall_mem_append.2 ⟨failures', failures⟩

theorem subsides_finish (tracing : Bool) (level : Int) (e : Expr) (halt : Halt) (m : Machine) :
    Subsides m ((Deed.finish level e (.error halt)).replay tracing m) := by
  cases e with
  | list loc elements =>
    cases halt with
    | error e =>
      cases tracing with
      | false => exact .refl m
      | true => exact ⟨List.suffix_refl _, rfl, [.leave level (.error e)], rfl, by simp⟩
    | stuck => exact .refl m
  | _ => exact .refl m

theorem Unwinds.subsides {e e' : Expr} {cause cause' : Halt} {rest : List Deed}
    (unwinds : Unwinds e cause rest e' cause') (tracing : Bool) (m : Machine) :
    Subsides m (Sketch.replay tracing m rest) := by
  induction unwinds generalizing m with
  | nil => exact .refl m
  | exitScope _ ih =>
    have exited : Subsides m m.exitScope := ⟨List.tail_suffix _, rfl, [], rfl, by simp⟩
    exact exited.trans (ih m.exitScope)
  | finish _ _ ih => exact (subsides_finish tracing _ _ _ m).trans (ih _)

theorem Unwinds.forall_mem {e e' : Expr} {cause cause' : Halt} {rest : List Deed}
    (unwinds : Unwinds e cause rest e' cause') :
    ∀ deed ∈ rest, deed = .act .exitScope ∨ deed.Failed := by
  induction unwinds with
  | nil => simp
  | exitScope _ ih => exact List.forall_mem_cons.2 ⟨.inl rfl, ih⟩
  | finish _ _ ih => exact List.forall_mem_cons.2 ⟨.inr trivial, ih⟩

/-- An assignment tells in its own words that its place failed. -/
theorem call_assignment_of_place_error {ev : Evaluator} {place : Expr} {m n : Machine}
    {e : EvalError} (computed : place.kind ≠ .symbol) (present : place.kind ≠ .nothing)
    (failed : ev place m = .error (.error e) n) (loc headLoc : Int) (expr : Expr) :
    call ev loc [.symbol headLoc (bytes "set"), place, expr] m =
      .error (.error ⟨.unboundPlace, place.loc⟩) n := by
  have unnamed : Form.placeName? ev place m = .ok none n := by
    cases place with
    | symbol => exact absurd rfl computed
    | nothing => exact absurd rfl present
    | number | string | boolean | list =>
      simp only [Form.placeName?, bind, EStateM.bind, attempt, failed]
      rfl
  have unbound : Form.assignment ev place expr m =
      .error (.error ⟨.unboundPlace, place.loc⟩) n := by
    simp only [Form.assignment, bind, EStateM.bind, unnamed]
    rfl
  simp only [call, show bytes "set" = Builtin.assignment.name from rfl, Builtin.ofName?_name]
  exact unbound

/-- From the moment something fails, the deeds only leave scopes and hand the failure on: nothing
more is evaluated, assigned, drawn or given another colour. So the caller's scopes and the canvas
stay as they are at that moment, and the evaluation ends in the failure that was handed on. -/
theorem first_failure_ends_evaluation (tracing : Bool) (level : Int) (e : Expr) (m : Machine) :
    let result := evalTop tracing level e m
    let deeds := deeds tracing level e m
    (∃ before, deeds = before ++ [.finish level e result.1]) ∧ replay tracing m deeds = result.2 ∧
    (∀ before level' inner cause rest,
      deeds = before ++ .finish level' inner (.error cause) :: rest →
      let moment := replay tracing m (before ++ [.finish level' inner (.error cause)])
      (∀ deed ∈ rest, deed = .act .exitScope ∨ deed.Failed) ∧
      result.2.scopes = moment.scopes.drop (moment.scopes.length - m.scopes.length) ∧
      result.2.canvas = moment.canvas ∧
      (∃ leaves, result.2.log = leaves ++ moment.log ∧
        ∀ event ∈ leaves, ∃ level e, event = .leave level (.error e)) ∧
      ∃ halt, result.1 = .error halt ∧ Unwinds inner cause rest e halt) ∧
    ∀ (ev : Evaluator) loc headLoc place expr error n, place.kind ≠ .symbol →
      place.kind ≠ .nothing → ev place m = .error (.error error) n →
      call ev loc [.symbol headLoc (bytes "set"), place, expr] m =
        .error (.error ⟨.unboundPlace, place.loc⟩) n ∧
      EvalError.message ⟨.unboundPlace, place.loc⟩ =
        bytes "The first argument to set must be a symbol in scope" := by
  intro result deeds
  have settled : result = settle (eval tracing level e) m := evalTop_eq_settle ..
  have replayed : replay tracing m deeds = result.2 := by
    rw [settled, settle_snd]
    exact replay_deedsWithin ..
  have length : result.2.scopes.length = m.scopes.length := by
    simpa using congrArg List.length (lasting_sameNames.evalTop tracing level e m)
  refine ⟨settled ▸ deedsWithin_eq_append .., replayed, ?_, ?_⟩
  · intro before level' inner cause rest split moment
    have abrupt : Abrupt deeds e result.1 := by
      rw [settled]
      exact abrupt_deedsWithin ..
    obtain ⟨halt, ended, unwinds⟩ := abrupt.unwinds split
    have subsides : Subsides moment result.2 := by
      rw [← replayed, split, List.append_cons, replay_append]
      exact unwinds.subsides tracing moment
    obtain ⟨scopes, canvas, log⟩ := subsides
    rw [List.suffix_iff_eq_drop, length] at scopes
    exact ⟨unwinds.forall_mem, scopes, canvas, log, halt, ended, unwinds⟩
  · intro ev loc headLoc place expr error n computed present failed
    exact ⟨call_assignment_of_place_error computed present failed loc headLoc expr, rfl⟩

/-- `(let ((x true)) (set (+ z) x) (noFill))`: the undefined `z` is handed on by the sum as it is,
and by the assignment as a place that names nothing. -/
theorem first_failure_ends_evaluation_place :
    let z := Expr.symbol 25 (bytes "z")
    let sum := Expr.list 22 [.symbol 23 (bytes "+"), z]
    let set := Expr.list 17 [.symbol 18 (bytes "set"), sum, .symbol 28 (bytes "x")]
    let true := Expr.symbol 9 (bytes "true")
    let bindings := Expr.list 5 [.list 6 [.symbol 7 (bytes "x"), true]]
    let clear := Expr.list 31 [.symbol 32 (bytes "noFill")]
    let e := Expr.list 0 [.symbol 1 (bytes "let"), bindings, set, clear]
    let m : Machine := { scopes := [.empty] }
    let undefined := Halt.error ⟨.undefinedSymbol (bytes "z"), 25⟩
    let unbound := Halt.error ⟨.unboundPlace, 22⟩
    let rest : List Deed := [.finish 2 sum (.error undefined), .finish 1 set (.error unbound),
      .act .exitScope, .finish 0 e (.error unbound)]
    (∃ before, deeds false 0 e m = before ++ .finish 3 z (.error undefined) :: rest) ∧
      Unwinds z undefined rest e unbound ∧ (evalTop false 0 e m).1 = .error unbound ∧
      (evalTop false 0 e m).2.canvas = m.canvas := by
  intro z sum set true bindings clear e m undefined unbound rest
  have split : deeds false 0 e m = [.start 0 e, .act .enterScope, .start 1 true,
      .finish 1 true (.ok (.boolean 9 .true)), .act (.assign 0 (bytes "x") (.boolean 9 .true)),
      .start 1 set, .start 2 sum, .start 3 z] ++ .finish 3 z (.error undefined) :: rest := rfl
  obtain ⟨-, -, told, -⟩ := first_failure_ends_evaluation false 0 e m
  obtain ⟨-, -, canvas, -, halt, ended, unwinds⟩ := told _ _ _ _ _ split
  have outcome : (evalTop false 0 e m).1 = .error unbound := rfl
  cases outcome.symm.trans ended
  exact ⟨⟨_, split⟩, unwinds, outcome, canvas⟩

end Sketch
