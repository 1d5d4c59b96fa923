import Sketch.Console.Program
import Sketch.Proofs.Console.Stream
import Sketch.Proofs.Eval.Halting

/-! Lines that are typed. What is typed line by line is read line by line, and each line that is not
a command of the conversation is run as a source of its own. -/
namespace Sketch

/-- A line that is run as it is typed: it fits, is no command, and no byte in it ends it early. -/
def IsSourceLine (line : Bytes) : Prop :=
  (∀ c ∈ line, c ≠ 0 ∧ c ≠ carriageReturn ∧ c ≠ newline) ∧ line.length ≤ 1023 ∧
    line ≠ bytes "?" ∧ line ≠ bytes "+"

instance (line : Bytes) : Decidable (IsSourceLine line) :=
  inferInstanceAs (Decidable (_ ∧ _ ∧ _ ∧ _))

/-- The input of a conversation in which these lines are typed. -/
def typed (lines : List Bytes) : Bytes := lines.flatMap (· ++ [newline])

theorem streamLines_typed {lines : List Bytes} (single : ∀ line ∈ lines, newline ∉ line) :
    streamLines (typed lines) = lines.map (· ++ [newline]) := by
  induction lines with
  | nil => rfl
  | cons line rest ih =>
    obtain ⟨first, later⟩ := List.forall_mem_cons.1 single
    have input : typed (line :: rest) = line ++ newline :: typed rest := by simp [typed]
    rw [input, streamLines_append_newline first, ih later, List.map_cons]

/-- What is typed is read line by line. -/
theorem readLines_typed_eq_map {room : Nat} (capacity : 0 < room) {lines : List Bytes}
    (plain : ∀ line ∈ lines, 0 ∉ line ∧ newline ∉ line) :
    readLines room capacity (typed lines) = lines.map (Line.ofContent room) := by
  have clean : 0 ∉ typed lines := by
    simp only [typed, List.mem_flatMap, not_exists, not_and, List.mem_append, not_or]
    exact fun line member => ⟨(plain line member).1, by decide⟩
  rw [readLines_eq_map capacity clean, streamLines_typed fun line member => (plain line member).2,
    List.map_map]
  refine List.map_congr_left fun line member => ?_
  exact congrArg (Line.ofContent room)
    (lineContent_line (plain line member).2 (.inl rfl : Closes [newline] []))

/-- A line that fits and holds no carriage return is read as it is. -/
theorem Line.ofContent_eq_self {room : Nat} {line : Bytes} (plain : carriageReturn ∉ line)
    (fits : line.length ≤ room) : Line.ofContent room line = ⟨line, false⟩ := by
  have kept : line.takeWhile (· != carriageReturn) = line := by
    refine List.takeWhile_eq_self_iff.2 fun c member => ?_
    simpa using fun same : c = carriageReturn => plain (same ▸ member)
  rw [Line.ofContent_of_fits fits, kept]

theorem readLines_typed {room : Nat} (capacity : 0 < room) {lines : List Bytes}
    (ordinary : ∀ line ∈ lines, (∀ c ∈ line, c ≠ 0 ∧ c ≠ carriageReturn ∧ c ≠ newline) ∧
      line.length ≤ room) :
    readLines room capacity (typed lines) = lines.map fun line => ⟨line, false⟩ := by
  have plain : ∀ line ∈ lines, 0 ∉ line ∧ newline ∉ line := fun line member =>
    ⟨fun zero => ((ordinary line member).1 0 zero).1 rfl,
      fun ends => ((ordinary line member).1 newline ends).2.2 rfl⟩
  rw [readLines_typed_eq_map capacity plain]
  refine List.map_congr_left fun line member => ?_
  obtain ⟨each, fits⟩ := ordinary line member
  exact Line.ofContent_eq_self (fun returns => (each carriageReturn returns).2.1 rfl) fits

namespace Repl

/-- Each source is run behind a prompt, and the input ends behind another one. -/
def transcript (tracing : Bool) (sources : List Bytes) (executions : List Execution) : Bytes :=
  (List.zipWith (fun source x => prompt ++ x.report tracing source) sources executions).flatten ++
    prompt ++ [newline]

def answer (tracing : Bool) (line : Line) : StateM Repl Bytes := do
  return prompt ++ (← respond tracing line.command)

theorem converse_eq (tracing : Bool) (lines : List Line) (repl : Repl) :
    converse tracing lines repl =
      ((lines.mapM (answer tracing) repl).1.flatten ++ prompt ++ [newline],
        (lines.mapM (answer tracing) repl).2) := rfl

theorem answer_of_isSourceLine {line : Bytes} (runs : IsSourceLine line) (tracing : Bool)
    (repl : Repl) :
    answer tracing ⟨line, false⟩ repl =
      (prompt ++ (execute tracing line repl.machine).1.report tracing line,
        ⟨(execute tracing line repl.machine).2, line⟩) := by
  obtain ⟨-, -, notHelp, notAgain⟩ := runs
  have command : Line.command ⟨line, false⟩ = .source line := by
    simp [Line.command, notHelp, notAgain]
  simp only [answer, command]
  rfl

/-- A conversation of sources only runs them one after another. -/
theorem mapM_answer {lines : List Bytes} (runs : ∀ line ∈ lines, IsSourceLine line)
    (tracing : Bool) (repl : Repl) :
    (lines.map fun line => ⟨line, false⟩).mapM (answer tracing) repl =
      (List.zipWith (fun source x => prompt ++ x.report tracing source) lines
        (lines.mapM (execute tracing) repl.machine).1,
        ⟨(lines.mapM (execute tracing) repl.machine).2, lines.getLastD repl.last⟩) := by
  induction lines generalizing repl with
  | nil => rfl
  | cons line rest ih =>
    obtain ⟨first, later⟩ := List.forall_mem_cons.1 runs
    rw [List.map_cons, mapM_cons_apply, answer_of_isSourceLine first, ih later, mapM_cons_apply,
      List.zipWith_cons_cons, List.getLastD_cons]

theorem converse_typed {lines : List Bytes} (runs : ∀ line ∈ lines, IsSourceLine line)
    (tracing : Bool) (m : Machine) :
    converse tracing (readLines maxLineLength (by decide) (typed lines)) { machine := m } =
      (transcript tracing lines (lines.mapM (execute tracing) m).1,
        ⟨(lines.mapM (execute tracing) m).2, lines.getLastD []⟩) := by
  have capacity : 0 < maxLineLength := by decide
  rw [readLines_typed capacity fun line member => ⟨(runs line member).1, (runs line member).2.1⟩,
    converse_eq, mapM_answer runs]
  rfl

end Repl

end Sketch
