import Sketch.Proofs.Eval.Safety
import Sketch.Proofs.Eval.Visible

/-! What there is besides programs: numbers, strings and booleans. From the start of a session on
nothing else is ever bound, and nothing else comes out of an evaluation, unless nothing does. Some
complaints about values are therefore never made. -/
namespace Sketch

/-- The kinds of what can be bound to a name. -/
def Kind.isPlain : Kind → Bool
  | .number | .string | .boolean => true
  | .nothing | .symbol | .list => false

/-- A value, or nothing. -/
def Expr.IsResult (e : Expr) : Prop := e = .nothing ∨ e.kind.isPlain

instance Expr.decidableIsResult (e : Expr) : Decidable e.IsResult :=
  match e with
  | .nothing => isTrue (.inl rfl)
  | .number .. | .string .. | .boolean .. => isTrue (.inr rfl)
  | .symbol .. | .list .. => isFalse fun result => result.elim nofun nofun

theorem Expr.IsResult.eq_nothing {e : Expr} (result : e.IsResult) (untrue : e.truth? = none) :
    e = .nothing := by
  rcases result with missing | plain
  · exact missing
  · cases e <;> simp_all [truth?, Kind.isPlain, Expr.kind]

namespace Scopes

/-- Every value in every scope is a number, a string or a boolean. -/
def Plain (scopes : Scopes) : Prop := ∀ f ∈ scopes, ∀ entry ∈ f.entries, entry.2.kind.isPlain

instance (scopes : Scopes) : Decidable (Plain scopes) :=
  inferInstanceAs (Decidable (∀ f ∈ scopes, ∀ entry ∈ f.entries, entry.2.kind.isPlain))

theorem Plain.setAt {scopes : Scopes} (plain : Plain scopes) (index : Nat) (name : Bytes)
    {value : Expr} (plainValue : value.kind.isPlain) : Plain (setAt scopes index name value) :=
  forall_setAt (P := fun value => value.kind.isPlain) plain index name plainValue

theorem Plain.of_find? {scopes : Scopes} (plain : Plain scopes) {name : Bytes} {value : Expr}
    (found : find? scopes name = some value) : value.kind.isPlain :=
  of_find?_eq_some (P := fun value => value.kind.isPlain) plain found

theorem Plain.lookup {scopes : Scopes} (plain : Plain scopes) (name : Bytes) :
    (lookup scopes name).IsResult := by
  unfold Scopes.lookup
  cases found : find? scopes name with
  | none => exact .inl rfl
  | some value => exact .inr (plain.of_find? found)

theorem Plain.enter {scopes : Scopes} (plain : Plain scopes) : Plain scopes.enter :=
  List.forall_mem_cons.2 ⟨nofun, plain⟩

theorem Plain.exit {scopes : Scopes} (plain : Plain scopes) : Plain scopes.exit :=
  fun f member => plain f (List.mem_of_mem_tail member)

end Scopes

/-- A message that does not complain about a kind of value that there is not: no condition and no
comparand is a symbol or a list, and only a loop is told that its condition has no value. -/
def Fault.Usual (f : Fault) : Prop :=
  ¬ bytes "Unsupported condition type for if" <+: f.message ∧
  ¬ bytes "Equality comparison not supported for type" <+: f.message ∧
  (bytes "Unsupported condition type for while" <+: f.message →
    f.message = bytes "Unsupported condition type for while: nothing")

instance Fault.decidableUsual (f : Fault) : Decidable f.Usual :=
  inferInstanceAs (Decidable (_ ∧ _ ∧ (_ → _)))

/-- Two kinds of fault begin like this, and no other. -/
theorem Fault.of_opening {f : Fault} (opening : f.message.take 10 = bytes "Unsupporte" ∨
    f.message.take 10 = bytes "Equality c") :
    (∃ tester got, f = .badCondition tester got) ∨ ∃ got, f = .equalityOf got := by
  cases f with
  | badCondition tester got => exact .inl ⟨tester, got, rfl⟩
  | equalityOf got => exact .inr ⟨got, rfl⟩
  | wrongArity builtin | notNumber builtin _ =>
    rcases opening with start | start <;> cases builtin with
    | arithmetic op => cases op <;> cases start
    | comparison rel => cases rel <;> cases start
    | setInk ink | clearInk ink => cases ink <;> cases start
    | reserved name => cases name <;> cases start
    | equality | choice | binding | assignment | loop | rgb | rect | line => cases start
  | notString ink _ => rcases opening with start | start <;> cases ink <;> cases start
  | missingBranch taken => rcases opening with start | start <;> cases taken <;> cases start
  | equalityOfNothing index => rcases opening with start | start <;> cases index <;> cases start
  | undefinedSymbol | tooDeep | emptyList | notCallable | unimplemented | divisionByZero
  | incomparable | missingCondition | bindingsNotList | malformedBinding | missingBinding
  | unboundPlace | missingValue | tooManyRounds => rcases opening with start | start <;> cases start

theorem Fault.usual_of {f : Fault} (choice : ∀ got, f ≠ .badCondition .choice got)
    (equality : ∀ got, f ≠ .equalityOf got)
    (loop : ∀ got, f = .badCondition .loop got → got = .nothing) : f.Usual := by
  by_cases opening : f.message.take 10 = bytes "Unsupporte" ∨ f.message.take 10 = bytes "Equality c"
  · rcases Fault.of_opening opening with ⟨tester, got, rfl⟩ | ⟨got, rfl⟩
    · cases tester with
      | choice => exact absurd rfl (choice got)
      | loop =>
        cases loop got rfl
        decide
    · exact absurd rfl (equality got)
  · have taken {opening : Bytes} (starts : opening <+: f.message) (long : 10 ≤ opening.length) :
        f.message.take 10 = opening.take 10 := by
      obtain ⟨rest, message⟩ := starts
      rw [← message, List.take_append_of_le_length long]
    exact ⟨fun starts => opening (.inl (taken starts (by decide))),
      fun starts => opening (.inr (taken starts (by decide))),
      fun starts => absurd (.inl (taken starts (by decide))) opening⟩

/-- Among values and nothing, no other fault arises. -/
theorem Fault.usual_of_not_absent {f : Fault}
    (arises : ¬ f.Absent fun v w => v = w ∧ v.IsResult) : f.Usual := by
  refine Fault.usual_of ?_ ?_ ?_
  · rintro got rfl
    exact arises (.choice fun v w values _ untrue => values.2.eq_nothing untrue)
  · rintro got rfl
    exact arises (.equality fun v w values _ untrue => values.2.eq_nothing untrue)
  · rintro got rfl
    by_contra other
    refine arises (.loop fun v w values kind untrue => other ?_)
    rw [← kind, values.2.eq_nothing untrue, Expr.kind]

/-- An evaluation of what was read, beside itself, on scopes that hold values only. -/
def plain : Simulation where
  loc := Eq
  expr e e' := e = e' ∧ e.NullFree
  value v w := v = w ∧ v.IsResult
  fault := Fault.Usual
  machine _ m n := m = n ∧ m.scopes.Plain
  paired := by
    rintro e _ ⟨rfl, clean⟩
    refine .self rfl ?_
    rintro l es rfl element member
    exact ⟨rfl, Expr.nullFree_list_iff.1 clean element member⟩
  text same := congrArg Expr.text same.1
  matched := by
    rintro v _ ⟨rfl, _⟩
    exact .self trivial fun _ _ _ _ _ => trivial
  literal := by
    rintro e _ ⟨rfl, clean⟩ notSymbol notList
    refine ⟨rfl, .inr ?_⟩
    cases e with
    | nothing => exact absurd rfl (clean _ Expr.nothing.mem_nodes_self)
    | number | string | boolean => rfl
    | symbol | list => contradiction
  truth b same := ⟨by rw [(Expr.symbol.inj same.1).1], .inr rfl⟩
  nothing := ⟨rfl, .inl rfl⟩
  number _ := ⟨rfl, .inr rfl⟩
  string _ := ⟨rfl, .inr rfl⟩
  boolean _ := ⟨rfl, .inr rfl⟩
  faults := Fault.usual_of_not_absent
  lookup _ same := by
    obtain ⟨rfl, held⟩ := same
    exact ⟨rfl, held.lookup _⟩
  enterScope same := by
    obtain ⟨rfl, held⟩ := same
    exact ⟨rfl, held.enter⟩
  exitScope same := by
    obtain ⟨rfl, held⟩ := same
    exact ⟨rfl, held.exit⟩
  bind name same present alike := by
    obtain ⟨rfl, result⟩ := same
    obtain ⟨rfl, held⟩ := alike
    exact ⟨rfl, held.setAt 0 name (result.resolve_left present)⟩
  owner _ _ same := by rw [same.1]
  assign _ _ chosen chosen' same present alike := by
    obtain ⟨rfl, result⟩ := same
    obtain ⟨rfl, held⟩ := alike
    rw [chosen] at chosen'
    cases chosen'
    exact ⟨rfl, held.setAt _ _ (result.resolve_left present)⟩
  setColour _ _ same := by
    obtain ⟨rfl, held⟩ := same
    exact ⟨rfl, held⟩
  rect x y w h _ same := by
    obtain ⟨rfl, held⟩ := same
    rw [after_draw]
    exact ⟨rfl, held⟩
  line x₁ y₁ x₂ y₂ _ same := by
    obtain ⟨rfl, held⟩ := same
    rw [after_draw]
    exact ⟨rfl, held⟩

theorem traceable_plain : plain.Traceable where
  deep := by
    change Fault.Usual .tooDeep
    decide
  enter level same alike := by
    obtain ⟨rfl, held⟩ := alike
    rw [same.1]
    exact ⟨rfl, held⟩
  leave level same alike := by
    obtain ⟨rfl, held⟩ := alike
    rw [same.1]
    exact ⟨rfl, held⟩
  error level located alike := by
    obtain ⟨rfl, held⟩ := alike
    rw [show _ = _ from located]
    exact ⟨rfl, held⟩

/-- A value or nothing, or one of the usual errors. -/
def Outcome.Expected : Outcome → Prop
  | .ok value => value.IsResult
  | .error (.error e) => e.fault.Usual
  | .error .stuck => False

instance (outcome : Outcome) : Decidable outcome.Expected :=
  match outcome with
  | .ok value => value.decidableIsResult
  | .error (.error e) => e.fault.decidableUsual
  | .error .stuck => isFalse id

/-- Sounds an alarm unless scopes hold values only before and after `body`, and its outcome is an
expected one. The alarm is to be stuck, which no evaluation around this one can catch. -/
def watch (body : EvalM Expr) : EvalM Expr := fun m =>
  match body m with
  | .ok value n =>
    if m.scopes.Plain ∧ n.scopes.Plain ∧ Outcome.Expected (.ok value) then .ok value n
    else .error .stuck n
  | .error halt n =>
    if m.scopes.Plain ∧ n.scopes.Plain ∧ Outcome.Expected (.error halt) then .error halt n
    else .error .stuck n

theorem after_watch (body : EvalM Expr) (m : Machine) : after (watch body) m = after body m := by
  unfold after watch
  cases body m <;> dsimp only <;> split_ifs <;> rfl

/-- Evaluates an expression and watches that evaluation and all evaluations inside it. -/
def evalWatched (tracing : Bool) (room : Nat) (level : Int) (expr : Expr) : EvalM Expr :=
  watch <|
    match room, expr with
    | room + 1, .list loc elements =>
      traced tracing level expr (call (evalWatched tracing room (level + 1)) loc elements)
    | _, _ => evalWithin tracing room level expr

theorem sameNames_evalWatched (tracing : Bool) (room : Nat) (level : Int) (e : Expr) :
    Keeps SameNames (evalWatched tracing room level e) := by
  induction room generalizing level e with
  | zero =>
    intro m
    rw [evalWatched.eq_def, after_watch]
    exact lasting_sameNames.evalWithin tracing 0 level e m
  | succ room ih =>
    intro m
    rw [evalWatched.eq_def, after_watch]
    cases e with
    | list loc elements =>
      exact lasting_sameNames.traced (lasting_sameNames.call (ih (level + 1)) loc elements) tracing
        level _ m
    | nothing | number | string | boolean | symbol =>
      exact lasting_sameNames.evalWithin tracing (room + 1) level _ m

section

variable {k : Nat}

theorem expected_of_halts {halt halt' : Halt} (halts : plain.Halts halt halt') :
    halt = halt' ∧ Outcome.Expected (.error halt) := by
  cases halts with
  | error usual located =>
    cases located
    exact ⟨rfl, usual⟩
  | stuck missing => exact absurd rfl (missing.2 _ Expr.nothing.mem_nodes_self)

/-- An alarm that is not sounded changes nothing. -/
theorem agree_watch {body body' : EvalM Expr} (inner : plain.Agree k plain.value body body') :
    plain.Agree k plain.value (watch body) body' := by
  rintro m _ ⟨rfl, held⟩
  have ended := inner m m ⟨rfl, held⟩
  unfold watch
  generalize body m = r at ended
  generalize body' m = r' at ended
  cases ended with
  | ok same alike =>
    dsimp only
    rw [if_pos ⟨held, alike.2, same.2⟩]
    exact .ok same alike
  | error halts alike =>
    dsimp only
    rw [if_pos ⟨held, alike.2, (expected_of_halts halts).2⟩]
    exact .error halts alike

/-- No alarm is ever sounded, however deep inside. -/
theorem agree_evalWatched (tracing : Bool) (room : Nat) (level : Int) {e : Expr}
    (clean : e.NullFree) :
    plain.Agree k plain.value (evalWatched tracing room level e) (evalWithin tracing room level e) := by
  have atEnds (k room : Nat) (level : Int) {e : Expr} (clean : e.NullFree) :=
    agree_watch (k := k) (traceable_plain.agree_evalWithin tracing room level ⟨rfl, clean⟩)
  induction room generalizing k level e with
  | zero =>
    rw [evalWatched.eq_def]
    exact atEnds k 0 level clean
  | succ room ih =>
    rw [evalWatched.eq_def]
    cases e with
    | list loc elements =>
      -- the one case with evaluations inside, which are watched themselves
      have both : plain.Evaluators (evalWatched tracing room (level + 1))
          (evalWithin tracing room (level + 1)) := by
        refine ⟨fun {k e e'} same => ?_, sameNames_evalWatched tracing room (level + 1),
          lasting_sameNames.evalWithin tracing room (level + 1)⟩
        obtain ⟨rfl, inner⟩ := same
        exact ih (level + 1) inner
      apply agree_watch
      exact traceable_plain.agree_traced tracing level ⟨rfl, clean⟩
        (Simulation.agree_call both ⟨rfl, clean⟩)
    | nothing | number | string | boolean | symbol => exact atEnds k (room + 1) level clean

end

def evalTopWatched (tracing : Bool) (level : Int) (expr : Expr) : StateM Machine Outcome := fun m =>
  match evalWatched tracing (maxDepth - level).toNat level expr m with
  | .ok value m => (.ok value, m)
  | .error halt m => (.error halt, m)

def runWatched (tracing : Bool) (program : List Expr) : StateM Machine (List Outcome) :=
  program.mapM (evalTopWatched tracing 0)

theorem evalTop_of_plain (tracing : Bool) (level : Int) {e : Expr} (clean : e.NullFree)
    {m : Machine} (held : m.scopes.Plain) :
    evalTopWatched tracing level e m = evalTop tracing level e m ∧
      (evalTop tracing level e m).1.Expected ∧ (evalTop tracing level e m).2.scopes.Plain := by
  have ended := agree_evalWatched (k := 0) tracing (maxDepth - level).toNat level clean m m ⟨rfl, held⟩
  unfold evalTopWatched evalTop eval
  generalize evalWatched tracing (maxDepth - level).toNat level e m = r at ended
  generalize evalWithin tracing (maxDepth - level).toNat level e m = r' at ended
  cases ended with
  | ok same alike =>
    obtain ⟨rfl, result⟩ := same
    obtain ⟨rfl, held⟩ := alike
    exact ⟨rfl, result, held⟩
  | error halts alike =>
    obtain ⟨rfl, expected⟩ := expected_of_halts halts
    obtain ⟨rfl, held⟩ := alike
    exact ⟨rfl, expected, held⟩

theorem run_of_plain (tracing : Bool) {program : List Expr} (clean : ∀ e ∈ program, e.NullFree)
    {m : Machine} (held : m.scopes.Plain) :
    runWatched tracing program m = run tracing program m ∧
      (∀ outcome ∈ (run tracing program m).1, outcome.Expected) ∧
      (run tracing program m).2.scopes.Plain := by
  unfold runWatched run
  induction program generalizing m with
  | nil =>
    have vacuous : ∀ outcome ∈ ([] : List Outcome), outcome.Expected := fun _ => nofun
    exact ⟨rfl, vacuous, held⟩
  | cons e rest ih =>
    obtain ⟨first, later⟩ := List.forall_mem_cons.1 clean
    obtain ⟨same, expected, held⟩ := evalTop_of_plain tracing 0 first held
    obtain ⟨sameRest, expectedRest, heldRest⟩ := ih later held
    rw [mapM_cons_apply, mapM_cons_apply, same, sameRest]
    exact ⟨rfl, List.forall_mem_cons.2 ⟨expected, expectedRest⟩, heldRest⟩

theorem plain_start (width height : Float) : (Machine.start width height).scopes.Plain := by
  have inRoot : (Scopes.setAt (Scopes.setAt [Frame.empty] 0 (bytes "width") (.number noLoc width)) 0
      (bytes "height") (.number noLoc height)).Plain := by
    have empty : Scopes.Plain [Frame.empty] := by decide
    exact (empty.setAt 0 _ rfl).setAt 0 _ rfl
  exact inRoot

theorem plain_execute (tracing : Bool) (source : Bytes) {m : Machine} (held : m.scopes.Plain) :
    (execute tracing source m).2.scopes.Plain := by
  unfold execute
  cases accepted : (read source).program with
  | error errors => exact held
  | ok program =>
    have clean : ∀ e ∈ program, e.NullFree := fun e => nullFree_of_mem_program accepted
    exact (run_of_plain tracing clean (m := { m with log := [] }) held).2.2

theorem plain_session (runs : List (Bool × Bytes)) {m : Machine} (held : m.scopes.Plain) :
    (session (runs.map fun (tracing, source) => .run tracing source) m).scopes.Plain := by
  induction runs generalizing m with
  | nil => exact held
  | cons first rest ih => exact ih (plain_execute first.1 first.2 held)

theorem lookup_bind {α : Type} (name : Bytes) (f : Expr → EvalM α) (m : Machine) :
    (lookup name >>= f) m = f (Scopes.lookup m.scopes name) m := rfl

/-- A name that is bound has a value, so only one that is not bound is undefined. -/
theorem evalTop_symbol_eq_undefined_iff {m : Machine} (held : m.scopes.Plain) (tracing : Bool)
    (level loc : Int) {name : Bytes} (notTrue : name ≠ bytes "true")
    (notFalse : name ≠ bytes "false") :
    (evalTop tracing level (.symbol loc name) m).1 = .error (.error ⟨.undefinedSymbol name, loc⟩) ↔
      ∀ f ∈ m.scopes, ¬ f.has name := by
  have unbound : (∀ f ∈ m.scopes, ¬ f.has name) ↔ Scopes.find? m.scopes name = none := by
    rw [← Option.isNone_iff_eq_none, ← Option.not_isSome, ← Scopes.any_has_eq]
    simp
  rw [unbound, evalTop_eq_error, eval, evalWithin, evalSymbol, if_neg notTrue, if_neg notFalse]
  simp only [lookup_bind, Scopes.lookup]
  cases found : Scopes.find? m.scopes name with
  | none => exact ⟨fun _ => rfl, fun _ => ⟨m, rfl⟩⟩
  | some value =>
    have plainValue := held.of_find? found
    constructor
    · rintro ⟨n, failed⟩
      cases value with
      | nothing | symbol | list => cases plainValue
      | number | string | boolean => cases failed
    · intro missing
      cases missing

/-- No value is a symbol, so a place that is not written as one names nothing. -/
theorem placeName?_eq_none {ev : Evaluator} {place : Expr} (clean : place.NullFree)
    (notSymbol : place.kind ≠ .symbol) (agreed : plain.Agree 0 plain.value (ev place) (ev place))
    {m : Machine} (held : m.scopes.Plain) :
    ∃ n, Form.placeName? ev place m = .ok none n := by
  have ended := agreed m m ⟨rfl, held⟩
  cases place with
  | nothing => exact absurd rfl (clean _ Expr.nothing.mem_nodes_self)
  | symbol => contradiction
  | number | string | boolean | list =>
    unfold Form.placeName?
    simp only [bind, EStateM.bind, attempt]
    generalize ev _ m = r at ended
    cases ended with
    | @ok v _ n _ same alike =>
      rcases same.2 with rfl | plainValue
      · exact ⟨n, rfl⟩
      · cases v with
        | nothing | symbol | list => cases plainValue
        | number | string | boolean => exact ⟨n, rfl⟩
    | @error _ _ n _ halts _ =>
      cases halts with
      | error => exact ⟨n, rfl⟩
      | stuck missing => exact absurd rfl (missing.2 _ Expr.nothing.mem_nodes_self)

/-- The error of a `set` whose place is not a symbol. -/
def badPlace (loc : Int) (place : Expr) (rest : List Expr) : EvalError :=
  if rest.length = 1 then ⟨.unboundPlace, place.loc⟩ else ⟨.wrongArity .assignment, loc⟩

theorem call_set_of_plain {ev : Evaluator} {loc head : Int} {place : Expr} {rest : List Expr}
    (clean : place.NullFree) (notSymbol : place.kind ≠ .symbol)
    (agreed : plain.Agree 0 plain.value (ev place) (ev place)) {m : Machine}
    (held : m.scopes.Plain) :
    ∃ n, call ev loc (.symbol head (bytes "set") :: place :: rest) m =
      .error (.error (badPlace loc place rest)) n := by
  have named : Builtin.ofName? (bytes "set") = some .assignment := Builtin.ofName?_name .assignment
  unfold badPlace
  by_cases single : rest.length = 1
  · obtain ⟨e, rfl⟩ := List.length_eq_one_iff.1 single
    obtain ⟨n, unnamed⟩ := placeName?_eq_none clean notSymbol agreed held
    have failed : Form.assignment ev place e m = .error (.error ⟨.unboundPlace, place.loc⟩) n := by
      simp only [Form.assignment, bind, EStateM.bind, unnamed]
      rfl
    refine ⟨n, ?_⟩
    simp only [call, named]
    exact failed
  · have refused : Builtin.assignment.arity.accepts (place :: rest).length = false := by
      simpa [Builtin.arity, Arity.accepts] using single
    refine ⟨m, ?_⟩
    simp only [call, named, refused, if_neg single]
    rfl

theorem evalTop_set_of_plain (tracing : Bool) (level : Int) {loc head : Int} {place : Expr}
    {rest : List Expr} (clean : place.NullFree) (notSymbol : place.kind ≠ .symbol) {m : Machine}
    (held : m.scopes.Plain) :
    ∃ err, (evalTop tracing level (.list loc (.symbol head (bytes "set") :: place :: rest)) m).1 =
      .error (.error err) ∧ (level < maxDepth → err = badPlace loc place rest) := by
  simp only [evalTop_eq_error, eval]
  cases left : (maxDepth - level).toNat with
  | zero =>
    refine ⟨⟨.tooDeep, loc⟩, ?_, fun within => by omega⟩
    exact traced_of_error (fun m _ => ⟨m, rfl⟩) tracing level _
  | succ room =>
    refine ⟨badPlace loc place rest, ?_, fun _ => rfl⟩
    refine traced_of_error (fun m' same => ?_) tracing level _
    have agreed := traceable_plain.agree_evalWithin (k := 0) tracing room (level + 1)
      (⟨rfl, clean⟩ : plain.expr place place)
    exact call_set_of_plain clean notSymbol agreed (same ▸ held)

theorem plain_bindOne (tracing : Bool) (level : Int) {binding : Expr} (clean : binding.NullFree)
    {m : Machine} (held : m.scopes.Plain) :
    (after (Form.bindOne (eval tracing level) binding) m).scopes.Plain := by
  have keeps := lasting_sameNames.evalWithin tracing (maxDepth - level).toNat level
  have both : plain.Evaluators (eval tracing level) (eval tracing level) :=
    ⟨traceable_plain.agree_evalWithin tracing _ level, keeps, keeps⟩
  have ended := Simulation.agree_bindOne both (k := 0) ⟨rfl, clean⟩ m m ⟨rfl, held⟩
  unfold after
  generalize Form.bindOne (eval tracing level) binding m = r at ended
  cases ended with
  | ok _ alike => exact alike.2
  | error _ alike => exact alike.2

/-- Values are numbers, strings and booleans. However many sources were run in a session, its scopes
hold nothing else; running one more is watched at both ends of every evaluation inside it, and no
alarm is sounded. Wherever the scopes hold nothing else, evaluating and binding keep it so, a symbol
is undefined only if no scope holds it, and `set` fails at a place that is not a symbol. -/
theorem values_stay_plain :
    (∀ (width height : Float) (runs : List (Bool × Bytes)),
      let m := session (runs.map fun (tracing, source) => .run tracing source) (.start width height)
      m.scopes.Plain ∧
      ∀ (tracing : Bool) (source : Bytes) (program : List Expr),
        (read source).program = .ok program →
        runWatched tracing program m = run tracing program m ∧
        ∀ outcome ∈ (run tracing program m).1, outcome.Expected) ∧
    ∀ (m : Machine) (tracing : Bool) (level : Int), m.scopes.Plain →
      (∀ e : Expr, e.NullFree →
        evalTopWatched tracing level e m = evalTop tracing level e m ∧
        (evalTop tracing level e m).1.Expected ∧ (evalTop tracing level e m).2.scopes.Plain) ∧
      (∀ binding : Expr, binding.NullFree →
        (after (Form.bindOne (eval tracing level) binding) m).scopes.Plain) ∧
      (∀ (loc : Int) (name : Bytes), name ≠ bytes "true" → name ≠ bytes "false" →
        ((evalTop tracing level (.symbol loc name) m).1 =
          .error (.error ⟨.undefinedSymbol name, loc⟩) ↔ ∀ f ∈ m.scopes, ¬ f.has name)) ∧
      ∀ (loc head : Int) (place : Expr) (rest : List Expr), place.NullFree →
        place.kind ≠ .symbol →
        ∃ err, (evalTop tracing level (.list loc (.symbol head (bytes "set") :: place :: rest)) m).1 =
          .error (.error err) ∧ (level < maxDepth → err = badPlace loc place rest) := by
  refine ⟨fun width height runs => ?_, fun m tracing level held => ⟨?_, ?_, ?_, ?_⟩⟩
  · have held := plain_session runs (plain_start width height)
    refine ⟨held, fun tracing source program accepted => ?_⟩
    have clean : ∀ e ∈ program, e.NullFree := fun e => nullFree_of_mem_program accepted
    obtain ⟨same, expected, -⟩ := run_of_plain tracing clean held
    exact ⟨same, expected⟩
  · exact fun e clean => evalTop_of_plain tracing level clean held
  · exact fun binding clean => plain_bindOne tracing level clean held
  · exact fun loc name => evalTop_symbol_eq_undefined_iff held tracing level loc
  · exact fun loc head place rest clean notSymbol =>
      evalTop_set_of_plain tracing level clean notSymbol held

/-- What a drawing call leaves is neither a condition nor a place, and a loop is told so. -/
theorem values_stay_plain_nothing :
    let m : Machine := { scopes := [Frame.empty.set (bytes "x") (.string noLoc (bytes "red"))] }
    -- (while (fill x))
    let fill := Expr.list 7 [.symbol 8 (bytes "fill"), .symbol 13 (bytes "x")]
    let loop := Expr.list 0 [.symbol 1 (bytes "while"), fill]
    let source := bytes "(set (noFill) \"a\")"
    let program := [Expr.list 0 [.symbol 1 (bytes "set"), .list 5 [.symbol 6 (bytes "noFill")],
      .string 14 (bytes "a")]]
    (m.scopes.Plain ∧ loop.NullFree ∧ (read source).program = .ok program) ∧
    (evalTop true 0 loop m).1 = .error (.error ⟨.badCondition .loop .nothing, 7⟩) ∧
    (evalTop true 0 loop m).1.Expected ∧ evalTopWatched true 0 loop m = evalTop true 0 loop m ∧
    (after (Form.bindOne (eval true 0) fill) m).scopes.Plain ∧
    (evalTop true 0 (.symbol 0 (bytes "y")) m).1 =
      .error (.error ⟨.undefinedSymbol (bytes "y"), 0⟩) ∧
    (∃ err, (evalTop true 0 (.list 0 [.symbol 1 (bytes "set"), fill, .symbol 16 (bytes "x")]) m).1 =
      .error (.error err) ∧ (0 < (maxDepth : Int) → err = ⟨.unboundPlace, 7⟩)) ∧
    let n := session [.run true source] (.start 640 480)
    n.scopes.Plain ∧ runWatched true program n = run true program n := by
  intro m fill loop source program
  have held : m.scopes.Plain := by decide
  have clean : loop.NullFree := by decide
  have filled : fill.NullFree := by decide
  have accepted : (read source).program = .ok program := by
    subst source program
    with_unfolding_all rfl
  have failed : (evalTop true 0 loop m).1 = .error (.error ⟨.badCondition .loop .nothing, 7⟩) := rfl
  obtain ⟨evaluated, bound, undefined, placed⟩ := values_stay_plain.2 m true 0 held
  obtain ⟨watched, expected, -⟩ := evaluated loop clean
  obtain ⟨heldLater, watchedLater⟩ := values_stay_plain.1 640 480 [(true, source)]
  refine ⟨⟨held, clean, accepted⟩, failed, expected, watched, bound fill filled, ?_, ?_, ?_⟩
  · exact (undefined 0 (bytes "y") (by decide) (by decide)).2 (by decide)
  · exact placed 0 1 fill [.symbol 16 (bytes "x")] filled (by decide)
  · exact ⟨heldLater, (watchedLater true source program accepted).1⟩

end Sketch
