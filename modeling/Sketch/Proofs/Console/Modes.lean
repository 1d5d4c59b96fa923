import Sketch.Proofs.Console.Lines
import Sketch.Proofs.Eval.Relocation
import Sketch.Proofs.Source.Joined
import Sketch.Proofs.Source.Trees

/-! A file and a conversation. Running a file does the same as typing its lines one after another:
lines that are programs by themselves make up a program when joined, and what it does to the machine
depends on its locations no more than theirs does. -/
namespace Sketch

/-- The file made of these lines. -/
def joined (lines : List Bytes) : Bytes := [newline].intercalate lines

/-- Where each line begins in the file, if the first one begins at `start`. -/
def offsets (start : Nat) : List Bytes → List Nat
  | [] => []
  | line :: rest => start :: offsets (start + line.length + 1) rest

/-- The forms of each line, moved to where it begins. -/
def formsFrom (start : Nat) : List Bytes → List Expr
  | [] => []
  | line :: rest => (read line).forms.map (·.shift start) ++ formsFrom (start + line.length + 1) rest

theorem Expr.shift_shift (a b : Nat) (e : Expr) : (e.shift a).shift b = e.shift (a + b) := by
  rw [shift, shift, shift, relocate_relocate]
  congr 1
  funext loc
  simp [Int.add_assoc]

theorem Expr.shift_zero (e : Expr) : e.shift 0 = e := by
  have still : (fun loc : Int => loc + ((0 : Nat) : Int)) = id := by
    funext loc
    simp
  rw [shift, still, relocate_id]

theorem map_shift_formsFrom (start distance : Nat) (lines : List Bytes) :
    (formsFrom start lines).map (·.shift distance) = formsFrom (start + distance) lines := by
  induction lines generalizing start with
  | nil => rfl
  | cons line rest ih =>
    have next : start + line.length + 1 + distance = start + distance + line.length + 1 := by omega
    rw [formsFrom, formsFrom, List.map_append, ih, next, List.map_map]
    congr 2
    funext e
    exact e.shift_shift start distance

theorem program_joined {lines : List Bytes} (accepted : ∀ line ∈ lines, (read line).errors = []) :
    (read (joined lines)).program = .ok (formsFrom 0 lines) := by
  induction lines with
  | nil => with_unfolding_all rfl
  | cons line rest ih =>
    obtain ⟨first, later⟩ := List.forall_mem_cons.1 accepted
    have program : (read line).program = .ok (read line).forms := program_eq_ok.2 ⟨first, rfl⟩
    have here : (read line).forms.map (·.shift 0) = (read line).forms := by
      simp [Expr.shift_zero]
    rw [formsFrom, here]
    cases rest with
    | nil => simpa [joined, formsFrom] using program
    | cons next rest =>
      have split : joined (line :: next :: rest) = line ++ newline :: joined (next :: rest) := by
        simp [joined, List.intercalate_cons_cons]
      have moved := map_shift_formsFrom 0 (line.length + 1) (next :: rest)
      rw [split, program_append program (by decide) (ih later), moved, Nat.add_assoc]

theorem run_append (tracing : Bool) (before later : List Expr) (m : Machine) :
    run tracing (before ++ later) m =
      ((run tracing before m).1 ++ (run tracing later (run tracing before m).2).1,
        (run tracing later (run tracing before m).2).2) := by
  unfold run
  induction before generalizing m with
  | nil => rfl
  | cons e rest ih =>
    rw [List.cons_append, mapM_cons_apply, mapM_cons_apply, ih]
    rfl

theorem relocated_run (f : Int → Int) (tracing : Bool) {program : List Expr}
    (clean : ∀ e ∈ program, e.NullFree) {log log' : List Event} {m n : Machine}
    (same : Unlocated log log' m n) :
    List.Forall₂ (Outcome.Relocated f) (run tracing program m).1
      (run tracing (program.map (·.relocate f)) n).1 ∧
    Unlocated log log' (run tracing program m).2 (run tracing (program.map (·.relocate f)) n).2 := by
  unfold run
  induction program generalizing m n with
  | nil => exact ⟨.nil, same⟩
  | cons e rest ih =>
    obtain ⟨first, later⟩ := List.forall_mem_cons.1 clean
    obtain ⟨outcome, same⟩ := relocated_evalTop f tracing 0 first same
    obtain ⟨outcomes, same⟩ := ih later same
    rw [List.map_cons, mapM_cons_apply, mapM_cons_apply]
    exact ⟨.cons outcome outcomes, same⟩

theorem execute_of_accepted {source : Bytes} (accepted : (read source).errors = [])
    (tracing : Bool) (m : Machine) :
    execute tracing source m =
      (⟨read source, (run tracing (read source).forms { m with log := [] }).1,
        (run tracing (read source).forms { m with log := [] }).2.log.reverse⟩,
        (run tracing (read source).forms { m with log := [] }).2) := by
  have program : (read source).program = .ok (read source).forms :=
    program_eq_ok.2 ⟨accepted, rfl⟩
  unfold execute
  rw [program]
  rfl

/-- The outcomes of executions, each with where its source begins. -/
def placedOutcomes (places : List Nat) (executions : List Execution) : List (Nat × Outcome) :=
  (List.zipWith (fun place x => x.outcomes.map (place, ·)) places executions).flatten

/-- Line by line on one machine, and all lines at once on another: in between, the machines differ
in locations only, and in their logs, since each line has a log of its own. -/
theorem run_formsFrom (tracing : Bool) {lines : List Bytes}
    (accepted : ∀ line ∈ lines, (read line).errors = []) (start : Nat) {m n : Machine}
    (scopes : m.scopes.bare = n.scopes.bare) (canvas : m.canvas = n.canvas) :
    let conversation := lines.mapM (execute tracing) m
    let ran := run tracing (formsFrom start lines) n
    List.Forall₂ (fun placed outcome => placed.2.Relocated (· + placed.1) outcome)
      (placedOutcomes (offsets start lines) conversation.1) ran.1 ∧
    conversation.2.scopes.bare = ran.2.scopes.bare ∧ conversation.2.canvas = ran.2.canvas ∧
    ∃ events : List Event, ran.2.log = events.reverse ++ n.log ∧
      (conversation.1.flatMap Execution.events).map Event.bare = events.map Event.bare := by
  induction lines generalizing start m n with
  | nil => exact ⟨.nil, scopes, canvas, [], rfl, rfl⟩
  | cons line rest ih =>
    obtain ⟨first, later⟩ := List.forall_mem_cons.1 accepted
    have clean : ∀ e ∈ (read line).forms, e.NullFree := fun e =>
      nullFree_of_mem_program (program_eq_ok.2 ⟨first, rfl⟩)
    -- the line starts a log of its own, the file goes on with the one it has
    have here : Unlocated [] n.log { m with log := [] } n :=
      ⟨scopes, canvas, [], [], rfl, rfl, rfl⟩
    obtain ⟨outcomes, same⟩ := relocated_run (· + start) tracing clean here
    obtain ⟨events, events', logged, logged', bare⟩ := same.events
    obtain ⟨outcomesLater, scopesLater, canvasLater, eventsLater, loggedLater, bareLater⟩ :=
      ih later (start + line.length + 1) same.scopes same.canvas
    dsimp only
    rw [mapM_cons_apply, execute_of_accepted first, formsFrom, run_append]
    refine ⟨?_, scopesLater, canvasLater, events'.reverse ++ eventsLater, ?_, ?_⟩
    · refine List.rel_append ?_ outcomesLater
      exact List.forall₂_map_left_iff.2 outcomes
    · rw [List.reverse_append, List.reverse_reverse, List.append_assoc, ← logged']
      exact loggedLater
    · rw [List.flatMap_cons, List.map_append, List.map_append, bareLater, logged, List.append_nil,
        List.map_reverse, List.map_reverse, bare]

/-- Lines that are run one by one, and the file made of them. -/
theorem execute_joined (tracing : Bool) {lines : List Bytes}
    (accepted : ∀ line ∈ lines, (read line).errors = []) (m : Machine) :
    let conversation := lines.mapM (execute tracing) m
    let file := execute tracing (joined lines) m
    List.Forall₂ (fun placed outcome => placed.2.Relocated (· + placed.1) outcome)
      (placedOutcomes (offsets 0 lines) conversation.1) file.1.outcomes ∧
    conversation.2.scopes.bare = file.2.scopes.bare ∧ conversation.2.canvas = file.2.canvas ∧
    (conversation.1.flatMap Execution.events).map Event.bare = file.1.events.map Event.bare := by
  obtain ⟨clean, forms⟩ := program_eq_ok.1 (program_joined accepted)
  dsimp only
  rw [execute_of_accepted clean, forms]
  obtain ⟨outcomes, scopes, canvas, events, logged, bare⟩ := run_formsFrom tracing accepted 0
    (m := m) (n := { m with log := [] }) rfl rfl
  refine ⟨outcomes, scopes, canvas, ?_⟩
  rw [logged, List.append_nil, List.reverse_reverse, bare]

/-- What is said of an outcome, wherever it is from: the text of a value, or the message of an
error. -/
def Outcome.wording : Outcome → Bytes
  | .ok .nothing => []
  | .ok value => bytes "=> " ++ value.text
  | .error (.error e) => bytes "[error] " ++ e.message
  | .error .stuck => []

theorem Outcome.Relocated.wording_eq {f : Int → Int} {outcome outcome' : Outcome}
    (same : outcome.Relocated f outcome') : outcome.wording = outcome'.wording := by
  cases same with
  | error => rfl
  | ok same =>
    have text := Expr.text_eq_of_bare_eq same
    cases Expr.matched_of_bare_eq same with
    | nothing => rfl
    | number | string | boolean | symbol | list => exact congrArg (bytes "=> " ++ ·) text

/-- Running a file does what typing its lines does, if each line is a program by itself: the calls
are the same, the outcomes say the same and are located the offset of their line further on, and
colours and bindings are the same in the end, up to the locations of values. -/
theorem file_agrees_with_conversation (options : Options) {lines : List Bytes}
    (runs : ∀ line ∈ lines, IsSourceLine line)
    (accepted : ∀ line ∈ lines, ∃ program, (read line).program = .ok program) :
    let file := execute options.tracing (joined lines) options.machine
    let conversation := lines.mapM (execute options.tracing) options.machine
    -- what is shown of both
    (∀ name, options.runFile name (some (joined lines)) =
      ⟨if file.1.succeeded then 0 else 1, bytes "[ load] " ++ name ++
        newline :: file.1.report options.tracing (joined lines)⟩) ∧
    options.converse (typed lines) = ⟨0, Repl.banner options.width options.height ++
      Repl.transcript options.tracing lines conversation.1⟩ ∧
    Repl.converse options.tracing (readLines maxLineLength (by decide) (typed lines))
      { machine := options.machine } =
      (Repl.transcript options.tracing lines conversation.1,
        ⟨conversation.2, lines.getLastD []⟩) ∧
    -- what they have in common
    file.1.calls = conversation.1.flatMap Execution.calls ∧
    List.Forall₂ (fun placed outcome =>
        placed.2.Relocated (· + placed.1) outcome ∧ placed.2.wording = outcome.wording)
      (placedOutcomes (offsets 0 lines) conversation.1) file.1.outcomes ∧
    file.2.canvas = conversation.2.canvas ∧ file.2.scopes.bare = conversation.2.scopes.bare := by
  intro file conversation
  have clean : ∀ line ∈ lines, (read line).errors = [] := by
    intro line member
    obtain ⟨program, ok⟩ := accepted line member
    exact (program_eq_ok.1 ok).1
  have conversed := Repl.converse_typed runs options.tracing options.machine
  obtain ⟨outcomes, scopes, canvas, events⟩ := execute_joined options.tracing clean options.machine
  have calls : file.1.calls = conversation.1.flatMap Execution.calls := by
    calc file.1.calls = (conversation.1.flatMap Execution.events).filterMap Event.call? :=
        (Event.calls_eq_of_bare_eq events).symm
      _ = conversation.1.flatMap Execution.calls := List.filterMap_flatMap
  refine ⟨fun _ => rfl, ?_, conversed, calls, ?_, canvas.symm, scopes.symm⟩
  · rw [Options.converse, conversed]
  · exact outcomes.imp fun _ _ same => ⟨same, same.wording_eq⟩

/-- A binding made in the first line is used in the third one, behind an empty one, and an error
there is found at its place in the file. -/
theorem file_agrees_with_conversation_later :
    let options : Options := {}
    let lines := [bytes "(set width \"red\")", bytes "", bytes "(fill width) (fill x)"]
    let file := execute options.tracing (joined lines) options.machine
    let conversation := lines.mapM (execute options.tracing) options.machine
    ((∀ line ∈ lines, IsSourceLine line) ∧
      ∀ line ∈ lines, ∃ program, (read line).program = .ok program) ∧
    offsets 0 lines = [0, 18, 19] ∧
    file.1.outcomes = [.ok (.string 11 (bytes "red")), .ok .nothing,
      .error (.error ⟨.undefinedSymbol (bytes "x"), 19 + 19⟩)] ∧
    List.Forall₂ (fun placed outcome =>
        placed.2.Relocated (· + placed.1) outcome ∧ placed.2.wording = outcome.wording)
      (placedOutcomes (offsets 0 lines) conversation.1) file.1.outcomes ∧
    file.2.canvas = conversation.2.canvas := by
  intro options lines file conversation
  have runs : ∀ line ∈ lines, IsSourceLine line := by decide +kernel
  have clean : ∀ line ∈ lines, (read line).errors = [] := by decide +kernel
  have accepted : ∀ line ∈ lines, ∃ program, (read line).program = .ok program :=
    fun line member => ⟨_, program_eq_ok.2 ⟨clean line member, rfl⟩⟩
  have program : (read (joined lines)).program = .ok [
      .list 0 [.symbol 1 (bytes "set"), .symbol 5 (bytes "width"), .string 11 (bytes "red")],
      .list 19 [.symbol 20 (bytes "fill"), .symbol 25 (bytes "width")],
      .list 32 [.symbol 33 (bytes "fill"), .symbol 38 (bytes "x")]] := by
    with_unfolding_all rfl
  have outcomes : file.1.outcomes = [.ok (.string 11 (bytes "red")), .ok .nothing,
      .error (.error ⟨.undefinedSymbol (bytes "x"), 19 + 19⟩)] := by
    obtain ⟨whole, forms⟩ := program_eq_ok.1 program
    simp only [file, execute_of_accepted whole, forms]
    rfl
  obtain ⟨-, -, -, -, placed, canvas, -⟩ := file_agrees_with_conversation options runs accepted
  exact ⟨⟨runs, accepted⟩, rfl, outcomes, placed, canvas⟩

end Sketch
