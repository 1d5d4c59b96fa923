import Sketch.Proofs.Console.Lines

/-! What a conversation runs. Each line runs a source or none, as the lines before it tell, and the
conversation is these sources run one after another. A line that repeats the last source could as
well be that source typed again, but for the echo. -/
namespace Sketch

namespace Repl

/-- The sources run so far, and then that of one more line. -/
def addSource (ran : List Bytes) (line : Line) : List Bytes :=
  if line.tooLong then ran
  else if line.text = bytes "?" then ran
  else if line.text = bytes "+" then ran ++ [ran.getLastD []]
  else ran ++ [line.text]

/-- The sources that the lines of a conversation run. -/
def sources (lines : List Line) : List Bytes := lines.foldl addSource []

/-- What a conversation executes, source by source. -/
def executions (tracing : Bool) : List Line → Repl → List (Bytes × Execution)
  | [], _ => []
  | line :: rest, repl =>
    ((source? repl.last line.command).map fun source =>
      (source, (execute tracing source repl.machine).1)).toList ++
      executions tracing rest (respond tracing line.command repl).2

/-- What each line would repeat, `last` being the last source before them. -/
def remembered (last : Bytes) : List Line → List Bytes
  | [] => []
  | line :: rest => last :: remembered ((source? last line.command).getD last) rest

/-- What a line shows of the source that it repeats. -/
def echo (line : Line) (last : Bytes) : Bytes :=
  if line.command = .again then last ++ [newline] else []

def echoes (last : Bytes) (lines : List Line) : List Bytes :=
  List.zipWith echo lines (remembered last lines)

/-- A text that a line can run as it stands. -/
def IsSource (text : Bytes) : Prop := text ≠ bytes "?" ∧ text ≠ bytes "+"

theorem command_eq_source {line : Line} {text : Bytes} (runs : line.command = .source text) :
    line = ⟨text, false⟩ ∧ IsSource text := by
  obtain ⟨content, tooLong⟩ := line
  unfold Line.command at runs
  split at runs
  · contradiction
  split at runs
  · contradiction
  split at runs
  · contradiction
  next fits notHelp notAgain =>
    cases runs
    exact ⟨by simpa using fits, notHelp, notAgain⟩

theorem IsSource.command {text : Bytes} (runs : IsSource text) :
    Line.command ⟨text, false⟩ = .source text := by
  simp [Line.command, runs.1, runs.2]

theorem IsSource.remembered {last : Bytes} (runs : IsSource last) (line : Line) :
    IsSource ((source? last line.command).getD last) := by
  cases command : line.command with
  | refuse | help | again => exact runs
  | source text => exact (command_eq_source command).2

theorem addSource_eq (ran : List Bytes) (line : Line) :
    addSource ran line = ran ++ (source? (ran.getLastD []) line.command).toList := by
  unfold addSource Line.command
  split
  · simp [source?]
  split
  · simp [source?]
  split <;> simp [source?]

theorem respond_of_none {last : Bytes} {command : Command} (idle : source? last command = none)
    (tracing : Bool) (m : Machine) :
    respond tracing command ⟨m, last⟩ = (preface last command, ⟨m, last⟩) := by
  simp [respond, idle]

theorem respond_of_some {last source : Bytes} {command : Command}
    (runs : source? last command = some source) (tracing : Bool) (m : Machine) :
    respond tracing command ⟨m, last⟩ =
      (preface last command ++ (execute tracing source m).1.report tracing source,
        ⟨(execute tracing source m).2, source⟩) := by
  unfold respond
  rw [runs]
  rfl

theorem respond_last (tracing : Bool) (command : Command) (repl : Repl) :
    (respond tracing command repl).2.last = (source? repl.last command).getD repl.last := by
  cases decided : source? repl.last command with
  | none => rw [respond_of_none decided, Option.getD_none]
  | some source => rw [respond_of_some decided, Option.getD_some]

theorem answer_apply (tracing : Bool) (line : Line) (repl : Repl) :
    answer tracing line repl = (prompt ++ (respond tracing line.command repl).1,
      (respond tracing line.command repl).2) := rfl

/-- The lines decide on the sources alone, whatever comes of running them. -/
theorem foldl_addSource (tracing : Bool) (lines : List Line) (ran : List Bytes) (m : Machine) :
    lines.foldl addSource ran =
      ran ++ (executions tracing lines ⟨m, ran.getLastD []⟩).map Prod.fst := by
  induction lines generalizing ran m with
  | nil => simp [executions]
  | cons line rest ih =>
    rw [List.foldl_cons, addSource_eq, executions]
    cases decided : source? (ran.getLastD []) line.command with
    | none =>
      rw [respond_of_none decided]
      simpa using ih ran m
    | some source =>
      rw [respond_of_some decided]
      have later := ih (ran ++ [source]) (execute tracing source m).2
      simpa using later

theorem sources_eq (tracing : Bool) (lines : List Line) (m : Machine) :
    sources lines = (executions tracing lines { machine := m }).map Prod.fst := by
  simpa [sources] using foldl_addSource tracing lines [] m

/-- The sources are run one after another on the one machine. -/
theorem executions_eq_zip (tracing : Bool) (lines : List Line) (repl : Repl) :
    let sources := (executions tracing lines repl).map Prod.fst
    let ran := sources.mapM (execute tracing) repl.machine
    executions tracing lines repl = sources.zip ran.1 ∧
      (lines.mapM (answer tracing) repl).2 = ⟨ran.2, sources.getLastD repl.last⟩ := by
  induction lines generalizing repl with
  | nil => exact ⟨rfl, rfl⟩
  | cons line rest ih =>
    obtain ⟨m, last⟩ := repl
    rw [mapM_cons_apply, answer_apply, executions]
    cases decided : source? last line.command with
    | none =>
      rw [respond_of_none decided]
      exact ih ⟨m, last⟩
    | some source =>
      rw [respond_of_some decided]
      obtain ⟨executed, ended⟩ := ih ⟨(execute tracing source m).2, source⟩
      simp only [Option.map_some, Option.toList_some, List.singleton_append, List.map_cons,
        mapM_cons_apply, List.zip_cons_cons, List.getLastD_cons]
      exact ⟨congrArg _ executed, ended⟩

theorem forall_mem_foldl_addSource {P : Bytes → Prop} {lines : List Line}
    (each : ∀ line ∈ lines, ∀ text, line.command = .source text → P text) (none : P [])
    {ran : List Bytes} (first : ∀ source ∈ ran, P source) :
    ∀ source ∈ lines.foldl addSource ran, P source := by
  induction lines generalizing ran with
  | nil => exact first
  | cons line rest ih =>
    obtain ⟨here, later⟩ := List.forall_mem_cons.1 each
    rw [List.foldl_cons, addSource_eq]
    refine ih later (List.forall_mem_append.2 ⟨first, ?_⟩)
    cases command : line.command with
    | refuse | help => simp [source?]
    | again =>
      have last : P (ran.getLastD []) := by
        rw [List.getLastD_eq_getLast?]
        cases found : ran.getLast? with
        | none => exact none
        | some source => exact first source (List.mem_of_getLast? found)
      simpa [source?] using last
    | source text => simpa [source?] using here text command

theorem sources_filter (lines : List Line) :
    sources (lines.filter fun line => !line.tooLong && line.text != bytes "?") = sources lines := by
  unfold sources
  rw [List.foldl_filter]
  congr 1
  funext ran line
  split
  · rfl
  · next idle =>
    unfold addSource
    by_cases fits : line.tooLong
    · rw [if_pos fits]
    · have help : line.text = bytes "?" := by simpa [fits] using idle
      rw [if_neg fits, if_pos help]

/-- A line, or the source that it repeats. -/
def retype (line : Line) (last : Bytes) : Line :=
  if line.command = .again then ⟨last, false⟩ else line

def retyped (last : Bytes) (lines : List Line) : List Line :=
  List.zipWith retype lines (remembered last lines)

theorem retyped_cons (last : Bytes) (line : Line) (rest : List Line) :
    retyped last (line :: rest) =
      retype line last :: retyped ((source? last line.command).getD last) rest := rfl

theorem echoes_cons (last : Bytes) (line : Line) (rest : List Line) :
    echoes last (line :: rest) =
      echo line last :: echoes ((source? last line.command).getD last) rest := rfl

/-- A source typed again is run again, and nothing but the echo is missing from the answer. -/
theorem respond_retype {repl : Repl} (runs : IsSource repl.last) (tracing : Bool) (line : Line) :
    source? repl.last (retype line repl.last).command = source? repl.last line.command ∧
      respond tracing line.command repl =
        (echo line repl.last ++ (respond tracing (retype line repl.last).command repl).1,
          (respond tracing (retype line repl.last).command repl).2) := by
  obtain ⟨m, last⟩ := repl
  by_cases again : line.command = .again
  · rw [retype, echo, if_pos again, if_pos again, again, runs.command]
    refine ⟨rfl, ?_⟩
    rw [respond_of_some (rfl : source? last .again = some last),
      respond_of_some (rfl : source? last (.source last) = some last)]
    simp [preface]
  · rw [retype, echo, if_neg again, if_neg again]
    exact ⟨rfl, rfl⟩

/-- By induction over the lines: what is remembered is always a source that can be typed. -/
theorem mapM_answer_retyped (tracing : Bool) (lines : List Line) (repl : Repl)
    (runs : IsSource repl.last) :
    let lines' := retyped repl.last lines
    executions tracing lines' repl = executions tracing lines repl ∧
    (lines'.mapM (answer tracing) repl).2 = (lines.mapM (answer tracing) repl).2 ∧
    ∃ shown : List (Bytes × Bytes), shown.map Prod.fst = echoes repl.last lines ∧
      (lines.mapM (answer tracing) repl).1 = shown.map (fun part => prompt ++ part.1 ++ part.2) ∧
      (lines'.mapM (answer tracing) repl).1 = shown.map fun part => prompt ++ part.2 := by
  induction lines generalizing repl with
  | nil => exact ⟨rfl, rfl, [], rfl, rfl, rfl⟩
  | cons line rest ih =>
    obtain ⟨decided, responded⟩ := respond_retype runs tracing line
    have next := respond_last tracing (retype line repl.last).command repl
    rw [decided] at next
    have stillRuns : IsSource _ := next ▸ runs.remembered line
    obtain ⟨executed, ended, shown, echoed, told, told'⟩ := ih _ stillRuns
    rw [next] at executed ended echoed told'
    dsimp only
    rw [retyped_cons, echoes_cons, mapM_cons_apply, mapM_cons_apply, answer_apply, answer_apply,
      executions, executions, responded, decided, executed, ended, told, told', ← echoed]
    refine ⟨rfl, rfl, (echo line repl.last, _) :: shown, rfl, ?_, rfl⟩
    simp

end Repl

/-- The lines of an input in which each source that is to be repeated is typed once more. -/
def spelledOut (last : Bytes) (contents : List Bytes) : List Bytes :=
  List.zipWith
    (fun content last =>
      if (Line.ofContent maxLineLength content).command = .again then last else content)
    contents (Repl.remembered last (contents.map (Line.ofContent maxLineLength)))

theorem length_takeWhile_le_withoutReturn (content : Bytes) :
    (content.takeWhile (· != carriageReturn)).length ≤ (withoutReturn content).length := by
  unfold withoutReturn
  split
  · next last =>
    obtain ⟨front, rfl⟩ := List.getLast?_eq_some_iff.1 last
    rw [takeWhile_append_of_stop (by decide), List.dropLast_concat]
    exact (List.takeWhile_prefix _).length_le
  · exact (List.takeWhile_prefix _).length_le

/-- What a line runs reads back as it is when it is typed. -/
theorem isSourceLine_of_command {content text : Bytes} (plain : 0 ∉ content ∧ newline ∉ content)
    (runs : (Line.ofContent maxLineLength content).command = .source text) : IsSourceLine text := by
  obtain ⟨read, isSource⟩ := Repl.command_eq_source runs
  unfold Line.ofContent at read
  split at read
  · cases read
  · next fits =>
    cases read
    refine ⟨fun c member => ?_, ?_, isSource⟩
    · have inside := (List.takeWhile_prefix _).subset member
      refine ⟨fun zero => plain.1 (zero ▸ inside), ?_, fun ends => plain.2 (ends ▸ inside)⟩
      simpa using List.mem_takeWhile_imp member
    · exact (length_takeWhile_le_withoutReturn content).trans (Nat.le_of_not_lt fits)

theorem map_ofContent_spelledOut {contents : List Bytes}
    (plain : ∀ content ∈ contents, 0 ∉ content ∧ newline ∉ content) {last : Bytes}
    (runs : IsSourceLine last) :
    (∀ content ∈ spelledOut last contents, 0 ∉ content ∧ newline ∉ content) ∧
    (spelledOut last contents).map (Line.ofContent maxLineLength) =
      Repl.retyped last (contents.map (Line.ofContent maxLineLength)) := by
  induction contents generalizing last with
  | nil => exact ⟨by simp [spelledOut], rfl⟩
  | cons content rest ih =>
    obtain ⟨here, later⟩ := List.forall_mem_cons.1 plain
    have next : IsSourceLine
        ((Repl.source? last (Line.ofContent maxLineLength content).command).getD last) := by
      cases command : (Line.ofContent maxLineLength content).command with
      | refuse | help | again => exact runs
      | source text => exact isSourceLine_of_command here command
    obtain ⟨clean, read⟩ := ih later next
    have first : 0 ∉ last ∧ newline ∉ last :=
      ⟨fun zero => (runs.1 0 zero).1 rfl, fun ends => (runs.1 newline ends).2.2 rfl⟩
    have again : Line.ofContent maxLineLength last = ⟨last, false⟩ :=
      Line.ofContent_eq_self (fun returns => (runs.1 carriageReturn returns).2.1 rfl) runs.2.1
    have split : spelledOut last (content :: rest) =
        (if (Line.ofContent maxLineLength content).command = .again then last else content) ::
          spelledOut ((Repl.source? last (Line.ofContent maxLineLength content).command).getD last)
            rest := rfl
    rw [split, List.map_cons, List.map_cons, Repl.retyped_cons, ← read, Repl.retype]
    by_cases repeats : (Line.ofContent maxLineLength content).command = .again
    · rw [if_pos repeats, if_pos repeats, again]
      exact ⟨List.forall_mem_cons.2 ⟨first, clean⟩, rfl⟩
    · rw [if_neg repeats, if_neg repeats]
      exact ⟨List.forall_mem_cons.2 ⟨here, clean⟩, rfl⟩

/-- A conversation runs the sources that its lines tell, one after another: a line that is too long
and one that asks for help run none, and do not change what the next one repeats, a repeating line
runs the source before it, and any other line runs itself. Where every line of the input is ended,
typing a source again instead of repeating it changes nothing but that there is no echo. -/
theorem conversation_runs_sources (tracing : Bool) (input : Bytes) (m : Machine) :
    let lines := readLines maxLineLength (by decide) input
    let conversation := Repl.converse tracing lines { machine := m }
    let executions := Repl.executions tracing lines { machine := m }
    let ran := (Repl.sources lines).mapM (execute tracing) m
    executions = (Repl.sources lines).zip ran.1 ∧
    executions.map Prod.fst = Repl.sources lines ∧
    conversation.2 = ⟨ran.2, (Repl.sources lines).getLastD []⟩ ∧
    (∀ source ∈ Repl.sources lines, source ≠ bytes "?" ∧ source ≠ bytes "+") ∧
    Repl.sources (lines.filter fun line => !line.tooLong && line.text != bytes "?") =
      Repl.sources lines ∧
    ∀ contents, (∀ content ∈ contents, 0 ∉ content ∧ newline ∉ content) →
      input = typed contents →
      let lines' := readLines maxLineLength (by decide) (typed (spelledOut [] contents))
      let conversation' := Repl.converse tracing lines' { machine := m }
      Repl.executions tracing lines' { machine := m } = executions ∧
      conversation'.2 = conversation.2 ∧
      ∃ shown : List (Bytes × Bytes), shown.map Prod.fst = Repl.echoes [] lines ∧
        conversation.1 =
          shown.flatMap (fun part => Repl.prompt ++ part.1 ++ part.2) ++ Repl.prompt ++ [newline] ∧
        conversation'.1 =
          shown.flatMap (fun part => Repl.prompt ++ part.2) ++ Repl.prompt ++ [newline] := by
  intro lines conversation executions ran
  have empty : Repl.IsSource [] := ⟨by decide, by decide⟩
  have told : Repl.sources lines = executions.map Prod.fst := Repl.sources_eq tracing lines m
  obtain ⟨executed, ended⟩ := Repl.executions_eq_zip tracing lines { machine := m }
  rw [← told] at executed ended
  refine ⟨executed, told.symm, ended, ?_, Repl.sources_filter lines, ?_⟩
  · refine Repl.forall_mem_foldl_addSource (fun line _ text runs => ?_) empty (by simp)
    exact (Repl.command_eq_source runs).2
  · rintro contents plain rfl lines' conversation'
    have nothing : IsSourceLine [] := ⟨by simp, Nat.zero_le _, empty⟩
    obtain ⟨clean, read⟩ := map_ofContent_spelledOut plain nothing
    have typedLines : lines = contents.map (Line.ofContent maxLineLength) :=
      readLines_typed_eq_map _ plain
    have retypedLines : lines' = Repl.retyped [] lines := by
      rw [typedLines, ← read]
      exact readLines_typed_eq_map _ clean
    obtain ⟨same, finished, shown, echoed, answers, answers'⟩ :=
      Repl.mapM_answer_retyped tracing lines { machine := m } empty
    rw [← retypedLines] at same finished answers'
    refine ⟨same, finished, shown, echoed, ?_, ?_⟩
    · show (Repl.converse tracing lines { machine := m }).1 = _
      rw [Repl.converse_eq, answers]
      rfl
    · show (Repl.converse tracing lines' { machine := m }).1 = _
      rw [Repl.converse_eq, answers']
      rfl

/-- Nothing is there to be repeated at first, and asking for help is not repeated. -/
theorem conversation_runs_sources_behind_help :
    let contents := [bytes "+", bytes "(fill width)", bytes "?", bytes "+\r", bytes "+"]
    let again := [bytes "", bytes "(fill width)", bytes "?", bytes "(fill width)",
      bytes "(fill width)"]
    let m := Machine.start 2 3
    let lines := readLines maxLineLength (by decide) (typed contents)
    let lines' := readLines maxLineLength (by decide) (typed again)
    (∀ content ∈ contents, 0 ∉ content ∧ newline ∉ content) ∧
    Repl.sources lines = [bytes "", bytes "(fill width)", bytes "(fill width)",
      bytes "(fill width)"] ∧
    Repl.executions true lines' { machine := m } = Repl.executions true lines { machine := m } := by
  intro contents again m lines lines'
  have plain : ∀ content ∈ contents, 0 ∉ content ∧ newline ∉ content := by decide
  have read : lines = contents.map (Line.ofContent maxLineLength) := readLines_typed_eq_map _ plain
  have spelled : spelledOut [] contents = again := by decide
  obtain ⟨-, -, -, -, -, told⟩ := conversation_runs_sources true (typed contents) m
  obtain ⟨same, -⟩ := told contents plain rfl
  rw [spelled] at same
  refine ⟨plain, ?_, same⟩
  rw [read]
  decide

end Sketch
