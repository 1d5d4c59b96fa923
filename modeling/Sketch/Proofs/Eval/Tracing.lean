import Sketch.Proofs.Eval.Effects
import Sketch.Proofs.Eval.Safety
import Sketch.Proofs.Eval.Unwinding

/-! Tracing shows what is evaluated and changes nothing else. What it shows is nested as the
evaluations are: each list is shown where its evaluation starts and again, with what came of it,
where it ends, and in between stands what is shown of the evaluations that its call makes. -/
namespace Sketch

/-- What a course asks, each with the machine that it is asked on. -/
def Course.asked {α : Type} (ev : Evaluator) : Course α → Machine → List (Expr × Machine)
  | .done _, _ | .halt _, _ => []
  | .look next, m => (next m.scopes).asked ev m
  | .act step next, m => next.asked ev (step.perform m)
  | .ask e next, m => (e, m) :: (next (settle (ev e) m).1).asked ev (settle (ev e) m).2

/-- The evaluations that the built-in of a list makes; none where lists are nested too deep. -/
def evaluations (level : Int) (loc : Int) (elements : List Expr) (m : Machine) :
    List (Expr × Machine) :=
  if level < maxDepth then (Course.call loc elements).asked (eval false (level + 1)) m else []

/-- How a line of the trace begins. -/
def traceMark (level : Int) (mark : String) : Bytes :=
  bytes "[trace] " ++ List.replicate level.toNat blank ++ bytes mark

/-- How the trace tells an outcome. -/
def Outcome.ending? : Outcome → Option Bytes
  | .ok value => some (untilNul value.text)
  | .error (.error e) => some (bytes "[error] " ++ untilNul e.message)
  | .error .stuck => none

mutual
/-- The text that tracing shows of the evaluation of an expression on a machine. -/
inductive Bracketed : Int → Expr → Machine → Bytes → Prop where
  | atom {level : Int} {e : Expr} {m : Machine} : e.kind ≠ .list → Bracketed level e m []
  | list {level loc : Int} {elements : List Expr} {m : Machine} {inner ending : Bytes} :
    BracketedAll (level + 1) (evaluations level loc elements m) inner →
    (evalTop false level (.list loc elements) m).1.ending? = some ending →
    Bracketed level (.list loc elements) m
      (traceMark level ">>> " ++ untilNul (Expr.list loc elements).text ++ [newline] ++ inner ++
        (traceMark level "<<< " ++ ending ++ [newline]))

/-- The texts of evaluations one after another. -/
inductive BracketedAll : Int → List (Expr × Machine) → Bytes → Prop where
  | nil {level : Int} : BracketedAll level [] []
  | cons {level : Int} {e : Expr} {m : Machine} {rest : List (Expr × Machine)}
    {text texts : Bytes} : Bracketed level e m text → BracketedAll level rest texts →
    BracketedAll level ((e, m) :: rest) (text ++ texts)
end

theorem traceText_append (events more : List Event) :
    traceText (events ++ more) = traceText events ++ traceText more := by
  simp [traceText]

theorem traceText_of_marks {events : List Event} (silent : ∀ event ∈ events, event.marks) :
    traceText events = [] := by
  unfold traceText
  rw [List.flatMap_eq_nil_iff]
  intro event member
  obtain ⟨present, shown⟩ := List.mem_filter.1 member
  cases event with
  | enter | leave => exact absurd (silent _ present) (by simp [Event.marks])
  | draw => simp [Event.call?] at shown
  | ink => rfl

namespace Act

/-- The events of an act on such a canvas. -/
def events (canvas : Canvas) : Act → List Event
  | .setColour ink colour => [.ink ink colour]
  | .draw shape => (shape canvas).map Event.draw
  | .assign .. | .enterScope | .exitScope => []

theorem log_perform (step : Act) (m : Machine) :
    (step.perform m).log = (step.events m.canvas).reverse ++ m.log := by
  cases step with
  | draw shape => simp only [perform, events, after_draw]
  | assign | setColour | enterScope | exitScope => rfl

theorem marks_of_mem_events (step : Act) (canvas : Canvas) :
    ∀ event ∈ step.events canvas, event.marks := by
  cases step <;> simp [events, Event.marks]

end Act

/-- Machines that differ in their logs only. -/
structure Alongside (m n : Machine) : Prop where
  scopes : m.scopes = n.scopes
  canvas : m.canvas = n.canvas

theorem Alongside.perform {m n : Machine} (alike : Alongside m n) (step : Act) :
    Alongside (step.perform m) (step.perform n) := by
  obtain ⟨scopes, canvas⟩ := alike
  cases step with
  | assign scope name value => exact ⟨congrArg (Scopes.setAt · scope name value) scopes, canvas⟩
  | setColour ink colour => exact ⟨scopes, congrArg (Canvas.setColour · ink colour) canvas⟩
  | draw shape =>
    simp only [Act.perform, after_draw]
    exact ⟨scopes, canvas⟩
  | enterScope => exact ⟨congrArg Scopes.enter scopes, canvas⟩
  | exitScope => exact ⟨congrArg Scopes.exit scopes, canvas⟩

/-- A traced run from `m` to `m'` beside a quiet one from `n` to `n'`: it does the same, and `text`
is what it shows besides. -/
structure Shadows (m m' n n' : Machine) (text : Bytes) : Prop extends Alongside m' n' where
  events : ∃ events : List Event, m'.log = events.reverse ++ m.log ∧
    n'.log = (events.filter Event.marks).reverse ++ n.log ∧ traceText events = text

namespace Shadows

variable {m m' m'' n n' n'' : Machine} {text more : Bytes}

theorem refl (alike : Alongside m n) : Shadows m m n n [] :=
  { alike with events := ⟨[], rfl, rfl, rfl⟩ }

theorem trans (first : Shadows m m' n n' text) (later : Shadows m' m'' n' n'' more) :
    Shadows m m'' n n'' (text ++ more) := by
  obtain ⟨events, logged, quiet, rfl⟩ := first.events
  obtain ⟨events', logged', quiet', rfl⟩ := later.events
  refine { later with events := ⟨events ++ events', ?_, ?_, traceText_append _ _⟩ }
  · rw [logged', logged, List.reverse_append, List.append_assoc]
  · rw [quiet', quiet, List.filter_append, List.reverse_append, List.append_assoc]

theorem perform (alike : Alongside m n) (step : Act) :
    Shadows m (step.perform m) n (step.perform n) [] := by
  have marks := step.marks_of_mem_events m.canvas
  refine { alike.perform step with
    events := ⟨step.events m.canvas, step.log_perform m, ?_, traceText_of_marks marks⟩ }
  rw [List.filter_eq_self.2 marks, alike.canvas]
  exact step.log_perform n

end Shadows

/-- With the first evaluator an expression does what it does with the second one, and shows its
trace besides. -/
def Traces (level : Int) (ev quiet : Evaluator) : Prop :=
  ∀ e m n, Alongside m n → (settle (quiet e) n).1 ≠ .error .stuck →
    (settle (ev e) m).1 = (settle (quiet e) n).1 ∧
    ∃ text, Shadows m (settle (ev e) m).2 n (settle (quiet e) n).2 text ∧ Bracketed level e n text

/-- Asking something that gets stuck, a course gets stuck itself. -/
theorem Course.Ends.eq_stuck {α : Type} {e list : Expr} {halt : Halt} {x : Course α}
    (ends : x.Ends halt) (passes : Passes e .stuck list halt) (ev : Evaluator) (m : Machine) :
    (settle (x.run ev) m).1 = .error .stuck := by
  cases passes
  exact (ends.deeds (fun _ _ => []) ev m e .stuck).1

theorem Course.settle_ask {α : Type} (ev : Evaluator) (e : Expr) (next : Outcome → Course α)
    (m : Machine) : settle ((Course.ask e next).run ev) m =
      settle ((next (settle (ev e) m).1).run ev) (settle (ev e) m).2 := rfl

theorem Course.Ends.shadows {α : Type} {halt : Halt} {x : Course α} (ends : x.Ends halt)
    (ev quiet : Evaluator) {m n : Machine} (alike : Alongside m n) :
    (settle (x.run ev) m).1 = (settle (x.run quiet) n).1 ∧
    Shadows m (settle (x.run ev) m).2 n (settle (x.run quiet) n).2 [] ∧ x.asked quiet n = [] := by
  induction ends generalizing m n with
  | halt => exact ⟨rfl, .refl alike, rfl⟩
  | exitScope _ ih =>
    have exited := Shadows.perform alike .exitScope
    obtain ⟨outcome, shadows, none⟩ := ih exited.toAlongside
    exact ⟨outcome, exited.trans shadows, none⟩

/-- Carried out with the one evaluator, a course does what it does with the other, and shows the
traces of what it asks. -/
theorem Course.Stops.shadows {α : Type} {level : Int} {list : Expr} {ev quiet : Evaluator}
    (traces : Traces level ev quiet) {x : Course α}
    (stops : x.Stops fun e cause => Passes e cause list) {m n : Machine} (alike : Alongside m n)
    (sound : (settle (x.run quiet) n).1 ≠ .error .stuck) :
    (settle (x.run ev) m).1 = (settle (x.run quiet) n).1 ∧
    ∃ text, Shadows m (settle (x.run ev) m).2 n (settle (x.run quiet) n).2 text ∧
      BracketedAll level (x.asked quiet n) text := by
  induction stops generalizing m n with
  | done | halt => exact ⟨rfl, [], .refl alike, .nil⟩
  | @look next _ ih =>
    have same : settle ((Course.look next).run ev) m = settle ((next n.scopes).run ev) m := by
      rw [← alike.scopes]
      rfl
    rw [same]
    exact ih n.scopes alike sound
  | @act next step _ ih =>
    have performed := Shadows.perform alike step
    obtain ⟨outcome, text, shadows, bracketed⟩ := ih performed.toAlongside sound
    exact ⟨outcome, text, performed.trans shadows, bracketed⟩
  | @ask next e _ failing ih =>
    simp only [Course.settle_ask, Course.asked] at sound ⊢
    have present : (settle (quiet e) n).1 ≠ .error .stuck := by
      intro stuck
      obtain ⟨halt, passes, ends⟩ := failing .stuck
      rw [stuck] at sound
      exact sound (ends.eq_stuck passes quiet _)
    obtain ⟨same, text, first, bracketed⟩ := traces e m n alike present
    rw [same]
    generalize settle (quiet e) n = result at sound first ⊢
    obtain ⟨outcome, n'⟩ := result
    cases outcome with
    | ok value =>
      obtain ⟨outcome, texts, later, inner⟩ := ih value first.toAlongside sound
      exact ⟨outcome, text ++ texts, first.trans later, .cons bracketed inner⟩
    | error cause =>
      obtain ⟨halt, -, ends⟩ := failing cause
      obtain ⟨outcome, later, none⟩ := ends.shadows ev quiet first.toAlongside
      refine ⟨outcome, text ++ [], first.trans later, .cons bracketed ?_⟩
      rw [none]
      exact .nil

theorem Shadows.record {m n : Machine} (alike : Alongside m n) {event : Event}
    (silent : event.marks = false) : Shadows m (m.record event) n n event.line := by
  refine { alike with events := ⟨[event], rfl, by simp [silent], ?_⟩ }
  cases event with
  | enter | leave => simp [traceText, Event.call?]
  | ink | draw => cases silent

theorem line_leave_error (level : Int) (e : EvalError) :
    (Event.leave level (.error e)).line =
      traceMark level "<<< " ++ (bytes "[error] " ++ untilNul e.message) ++ [newline] := by
  have clean : ∀ c ∈ bytes "[error] ", (c != 0) = true := by decide +kernel
  simp only [Event.line, traceLine, traceMark, blanks, untilNul,
    List.takeWhile_append_of_pos clean]

/-- The start and the end of a list stand around what its call shows. -/
theorem shadows_traced {level loc : Int} {elements : List Expr} {body quiet : EvalM Expr}
    {m n : Machine} {inner ending : Bytes} (alike : Alongside m n)
    (outcome : (settle body (m.record (.enter level (.list loc elements)))).1 = (settle quiet n).1)
    (shadows : Shadows (m.record (.enter level (.list loc elements)))
      (settle body (m.record (.enter level (.list loc elements)))).2 n (settle quiet n).2 inner)
    (ends : Outcome.ending? (settle quiet n).1 = some ending) :
    (settle (traced true level (.list loc elements) body) m).1 = (settle quiet n).1 ∧
    Shadows m (settle (traced true level (.list loc elements) body) m).2 n (settle quiet n).2
      (traceMark level ">>> " ++ untilNul (Expr.list loc elements).text ++ [newline] ++ inner ++
        (traceMark level "<<< " ++ ending ++ [newline])) := by
  have silent : (Event.enter level (.list loc elements)).marks = false := rfl
  have started := Shadows.record alike silent
  have reached := started.trans shadows
  rw [settle_traced]
  refine ⟨outcome, ?_⟩
  show Shadows m ((Deed.finish level (.list loc elements) (settle body
    (m.record (.enter level (.list loc elements)))).1).replay true _) _ _ _
  rw [outcome]
  generalize settle quiet n = result at reached ends ⊢
  obtain ⟨outcome, n'⟩ := result
  rcases outcome with (e | _) | value
  · cases ends
    rw [← line_leave_error]
    exact reached.trans (.record reached.toAlongside rfl)
  · cases ends
  · cases ends
    exact reached.trans (.record reached.toAlongside rfl)

theorem settle_evalSymbol_of_scopes_eq {m n : Machine} (same : m.scopes = n.scopes) (loc : Int)
    (name : Bytes) :
    (settle (evalSymbol loc name) m).1 = (settle (evalSymbol loc name) n).1 := by
  unfold evalSymbol
  split
  · rfl
  split
  · rfl
  have found (m : Machine) : lookup name m = .ok (Scopes.lookup m.scopes name) m := rfl
  simp only [settle, Bind.bind, EStateM.bind, found, same]
  cases Scopes.lookup n.scopes name <;> rfl

theorem traces_atom {e : Expr} (atom : e.kind ≠ .list) (room : Nat) (level : Int) {m n : Machine}
    (alike : Alongside m n) :
    (settle (evalWithin true room level e) m).1 = (settle (evalWithin false room level e) n).1 ∧
    ∃ text, Shadows m (settle (evalWithin true room level e) m).2 n
      (settle (evalWithin false room level e) n).2 text ∧ Bracketed level e n text := by
  cases e with
  | nothing | number | string | boolean =>
    rw [evalWithin, evalWithin]
    exact ⟨rfl, [], .refl alike, .atom atom⟩
  | symbol loc name =>
    rw [evalWithin, evalWithin, settle_snd, settle_snd, after_evalSymbol, after_evalSymbol]
    exact ⟨settle_evalSymbol_of_scopes_eq alike.scopes loc name, [], .refl alike, .atom atom⟩
  | list => contradiction

theorem Outcome.exists_ending {outcome : Outcome} (sound : outcome ≠ .error .stuck) :
    ∃ ending, outcome.ending? = some ending := by
  rcases outcome with (e | _) | value
  · exact ⟨_, rfl⟩
  · contradiction
  · exact ⟨_, rfl⟩

/-- A list shows its trace if its call does what it does quietly and shows the evaluations in it. -/
theorem traces_list {level loc : Int} {elements : List Expr} {body quiet : EvalM Expr}
    {m n : Machine} {inner : Bytes} (isQuiet : eval false level (.list loc elements) = quiet)
    (alike : Alongside m n) (sound : (settle quiet n).1 ≠ .error .stuck)
    (outcome : (settle body (m.record (.enter level (.list loc elements)))).1 = (settle quiet n).1)
    (shadows : Shadows (m.record (.enter level (.list loc elements)))
      (settle body (m.record (.enter level (.list loc elements)))).2 n (settle quiet n).2 inner)
    (bracketed : BracketedAll (level + 1) (evaluations level loc elements n) inner) :
    (settle (traced true level (.list loc elements) body) m).1 = (settle quiet n).1 ∧
    ∃ text, Shadows m (settle (traced true level (.list loc elements) body) m).2 n
      (settle quiet n).2 text ∧ Bracketed level (.list loc elements) n text := by
  obtain ⟨ending, ends⟩ := Outcome.exists_ending sound
  obtain ⟨same, around⟩ := shadows_traced alike outcome shadows ends
  rw [← isQuiet, ← evalTop_eq_settle] at ends
  exact ⟨same, _, around, .list bracketed ends⟩

/-- By induction on the room: the evaluations that a list makes have one level more. -/
theorem traces_evalWithin {room : Nat} {level : Int} (fits : (maxDepth - level).toNat = room) :
    Traces level (evalWithin true room level) (evalWithin false room level) := by
  induction room generalizing level with
  | zero =>
    intro e m n alike sound
    cases e with
    | nothing | number | string | boolean | symbol =>
      exact traces_atom (by simp [Expr.kind]) 0 level alike
    | list loc elements =>
      have isQuiet : eval false level (.list loc elements) = fail .tooDeep loc := by
        rw [eval, fits, evalWithin]
        rfl
      have none : evaluations level loc elements n = [] := if_neg (by omega)
      rw [evalWithin, evalWithin] at *
      exact traces_list isQuiet alike sound rfl (.refl ⟨alike.1, alike.2⟩) (none ▸ .nil)
  | succ room ih =>
    have inner : Traces (level + 1) (evalWithin true room (level + 1))
        (evalWithin false room (level + 1)) := ih (by omega)
    intro e m n alike sound
    cases e with
    | nothing | number | string | boolean | symbol =>
      exact traces_atom (by simp [Expr.kind]) _ level alike
    | list loc elements =>
      have quietly : evalWithin false (room + 1) level (.list loc elements) =
          call (evalWithin false room (level + 1)) loc elements := by
        rw [evalWithin]
        rfl
      have made : evaluations level loc elements n =
          (Course.call loc elements).asked (evalWithin false room (level + 1)) n := by
        have same : eval false (level + 1) = evalWithin false room (level + 1) := by
          funext e
          rw [eval, show (maxDepth - (level + 1)).toNat = room by omega]
        rw [evaluations, if_pos (by omega), same]
      have begun : Alongside (m.record (.enter level (.list loc elements))) n := ⟨alike.1, alike.2⟩
      rw [quietly, ← Course.run_call] at sound ⊢
      obtain ⟨outcome, text, shadows, bracketed⟩ :=
        (Course.Stops.call loc elements).shadows inner begun sound
      rw [evalWithin, ← Course.run_call]
      refine traces_list ?_ alike sound outcome shadows (made ▸ bracketed)
      rw [eval, fits, quietly, Course.run_call]

/-- Tracing changes neither the outcome nor the scopes nor the canvas, nor what is drawn. -/
theorem evalTop_quiet {e : Expr} (clean : e.NullFree) (tracing : Bool) (level : Int) (m : Machine) :
    let result := evalTop tracing level e m
    let quiet := evalTop false level e m
    result.1 = quiet.1 ∧ result.2.scopes = quiet.2.scopes ∧ result.2.canvas = quiet.2.canvas ∧
      result.2.log.filter Event.marks = quiet.2.log.filter Event.marks := by
  intro result quiet
  cases tracing with
  | false => exact ⟨rfl, rfl, rfl, rfl⟩
  | true =>
    have sound := evalTop_ne_stuck clean false level m
    rw [evalTop_eq_settle] at sound
    obtain ⟨outcome, text, shadows, -⟩ := traces_evalWithin rfl e m m ⟨rfl, rfl⟩ sound
    obtain ⟨events, logged, quietly, -⟩ := shadows.events
    simp only [result, quiet, evalTop_eq_settle]
    refine ⟨outcome, shadows.scopes, shadows.canvas, ?_⟩
    rw [eval, eval, logged, quietly]
    simp only [List.filter_append, List.filter_reverse, List.filter_filter, Bool.and_self]

/-- Tracing an evaluation changes neither its outcome nor what it leaves behind, nor what it does to
the canvas on the way. It shows nothing of what is no list; of a list it shows the start, what is
shown of the evaluations that its built-in makes one level further in, and the end. -/
theorem tracing_shows_evaluations (level : Int) {e : Expr} (clean : e.NullFree) (m : Machine) :
    let quiet := evalTop false level e m
    let traced := evalTop true level e m
    traced.1 = quiet.1 ∧ traced.2.scopes = quiet.2.scopes ∧ traced.2.canvas = quiet.2.canvas ∧
    ∃ events : List Event, traced.2.log = events.reverse ++ m.log ∧
      quiet.2.log = (events.filter Event.marks).reverse ++ m.log ∧
      Bracketed level e m (traceText events) := by
  intro quiet traced
  have sound := evalTop_ne_stuck clean false level m
  rw [evalTop_eq_settle] at sound
  obtain ⟨outcome, text, shadows, bracketed⟩ :=
    traces_evalWithin rfl e m m ⟨rfl, rfl⟩ sound
  obtain ⟨events, logged, quietly, rfl⟩ := shadows.events
  simp only [quiet, traced, evalTop_eq_settle]
  exact ⟨outcome, shadows.scopes, shadows.canvas, events, logged, quietly, bracketed⟩

/-- `(if (noFill) "a" "b")`: the condition has no value, which its own trace and that of the failing
list around it tell. -/
theorem tracing_shows_evaluations_missing :
    let condition := Expr.list 4 [.symbol 5 (bytes "noFill")]
    let e := Expr.list 0 [.symbol 1 (bytes "if"), condition, .string 13 (bytes "a"),
      .string 17 (bytes "b")]
    let m : Machine := { scopes := [.empty] }
    e.NullFree ∧ (evalTop false 0 e m).1 = .error (.error ⟨.missingCondition, 4⟩) ∧
      (evalTop true 0 e m).1 = (evalTop false 0 e m).1 ∧
      Bracketed 0 e m (bytes "[trace] >>> (if (noFill) \"a\" \"b\")\n" ++
        bytes "[trace]  >>> (noFill)\n[trace]  <<< nothing\n" ++
        bytes "[trace] <<< [error] Cannot evaluate condition for if statement\n") := by
  intro condition e m
  have clean : e.NullFree := by decide
  obtain ⟨outcome, -, -, events, logged, -, bracketed⟩ := tracing_shows_evaluations 0 clean m
  have log : (evalTop true 0 e m).2.log = [.leave 0 (.error ⟨.missingCondition, 4⟩),
    .leave 1 (.ok .nothing), .ink .fill noColour, .enter 1 condition, .enter 0 e] := rfl
  have happened : events = [.enter 0 e, .enter 1 condition, .ink .fill noColour,
      .leave 1 (.ok .nothing), .leave 0 (.error ⟨.missingCondition, 4⟩)] := by
    rw [log] at logged
    simpa [m] using (congrArg List.reverse logged).symm
  have outer : e.text = bytes "(if (noFill) \"a\" \"b\")" := by
    simp only [e, condition, Expr.text, List.map_cons, List.map_nil]
    decide
  have inner : condition.text = bytes "(noFill)" := by
    simp only [condition, Expr.text, List.map_cons, List.map_nil]
    decide
  have nothing : Expr.nothing.text = bytes "nothing" := by rw [Expr.text]
  have lines : traceText events = traceLine 0 ">>> " e.text ++ (traceLine 1 ">>> " condition.text ++
      (traceLine 1 "<<< " Expr.nothing.text ++ traceLine 0 "<<< " (bytes "[error] " ++
        EvalError.message ⟨.missingCondition, 4⟩))) := by
    simp [happened, traceText, Event.call?, Event.line]
  have shown : traceText events = bytes "[trace] >>> (if (noFill) \"a\" \"b\")\n" ++
      bytes "[trace]  >>> (noFill)\n[trace]  <<< nothing\n" ++
      bytes "[trace] <<< [error] Cannot evaluate condition for if statement\n" := by
    rw [lines, outer, inner, nothing]
    decide
  exact ⟨clean, rfl, outcome, shown ▸ bracketed⟩

end Sketch
