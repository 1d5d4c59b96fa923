import Sketch.Console.Report
import Sketch.Proofs.Eval.Halting
import Sketch.Proofs.Source.Spans

/-! Where errors point. An evaluation blames a node of its own expression, and all nodes that were
read stand in the source, so every error that is shown comes with the line it is about. -/
namespace Sketch

namespace Diagnostic

def heading (d : Diagnostic) : Bytes := bytes "[error] " ++ untilNul d.message ++ [newline]

/-- The line of the source that holds the location, and the marker under it. -/
def excerpt (source : Bytes) (d : Diagnostic) : Bytes :=
  let before := lineBefore source d.loc.toNat
  blanks 8 ++ untilNul (before ++ lineFrom source d.loc.toNat) ++ [newline]
    ++ blanks 8 ++ padding before ++ marker d.length ++ [newline]

/-- The source has a byte at the location. -/
def Inside (source : Bytes) (d : Diagnostic) : Prop := 0 ≤ d.loc ∧ d.loc < source.length

theorem Inside.display {source : Bytes} {d : Diagnostic} (inside : d.Inside source) :
    d.display source = d.heading ++ d.excerpt source := by
  obtain ⟨start, stop⟩ := inside
  have located : ¬ (d.loc < 0 ∨ source.length < d.loc) := by omega
  simp [Diagnostic.display, located, heading, excerpt]

end Diagnostic

def Outcome.diagnostic? : Outcome → Option Diagnostic
  | .error (.error e) => some e.diagnostic
  | .error .stuck | .ok _ => none

theorem Outcome.diagnostic?_eq_some {outcome : Outcome} {d : Diagnostic} :
    outcome.diagnostic? = some d ↔ ∃ e, outcome = .error (.error e) ∧ e.diagnostic = d := by
  rcases outcome with (e | _) | value <;> simp [diagnostic?]

/-- All that an execution shows as errors. -/
def Execution.diagnostics (x : Execution) : List Diagnostic :=
  x.reading.errors.map ParseError.diagnostic ++ x.outcomes.filterMap Outcome.diagnostic?

theorem Execution.mem_diagnostics {x : Execution} {d : Diagnostic} :
    d ∈ x.diagnostics ↔ (∃ e ∈ x.reading.errors, e.diagnostic = d) ∨
      ∃ e, .error (.error e) ∈ x.outcomes ∧ e.diagnostic = d := by
  simp only [diagnostics, List.mem_append, List.mem_map, List.mem_filterMap,
    Outcome.diagnostic?_eq_some]
  grind

/-- Every diagnostic is shown as it is displayed, in one piece. -/
theorem Execution.display_infix_report {x : Execution} {d : Diagnostic}
    (member : d ∈ x.diagnostics) (tracing : Bool) (source : Bytes) :
    d.display source <:+: x.report tracing source := by
  unfold Execution.report
  rcases mem_diagnostics.1 member with ⟨e, reported, rfl⟩ | ⟨e, failed, rfl⟩
  · have shown : e.diagnostic.display source <:+:
        x.reading.errors.flatMap (·.diagnostic.display source) :=
      List.infix_of_mem_flatten (List.mem_map.2 ⟨e, reported, rfl⟩)
    simp only [List.append_assoc]
    exact List.infix_append_of_infix_right (List.infix_append_of_infix_left shown)
  · have shown : e.diagnostic.display source <:+: x.outcomes.flatMap (Outcome.report source) :=
      List.infix_of_mem_flatten (List.mem_map.2 ⟨.error (.error e), failed, rfl⟩)
    exact List.infix_append_of_infix_right shown

theorem exists_span_of_run {source : Bytes} {program : List Expr}
    (accepted : (read source).program = .ok program) {tracing : Bool} {m : Machine} {i : Nat}
    {err : EvalError} (failed : (run tracing program m).1[i]? = some (.error (.error err))) :
    ∃ span, (spans source)[i]? = some span ∧ span.Holds err.loc := by
  obtain ⟨e, found, n, ended⟩ :=
    exists_getElem?_of_forall₂ (forall₂_run tracing program m) failed
  obtain ⟨span, located, covers⟩ :=
    exists_getElem?_of_forall₂ (spans_cover_program accepted) found
  obtain ⟨node, among, same⟩ := loc_of_evalTop ended
  exact ⟨span, located, same ▸ covers.holds node among⟩

theorem inside_of_mem_errors {source : Bytes} {e : ParseError}
    (reported : e ∈ (read source).errors) : e.diagnostic.Inside source :=
  ⟨Int.natCast_nonneg _, Int.ofNat_lt.2 (error_loc_lt_length reported)⟩

theorem reading_execute (tracing : Bool) (source : Bytes) (m : Machine) :
    (execute tracing source m).1.reading = read source := by
  unfold execute
  cases (read source).program <;> rfl

theorem inside_of_mem_diagnostics {tracing : Bool} {source : Bytes} {m : Machine} {d : Diagnostic}
    (member : d ∈ (execute tracing source m).1.diagnostics) : d.Inside source := by
  rcases Execution.mem_diagnostics.1 member with ⟨e, reported, rfl⟩ | ⟨err, failed, rfl⟩
  · rw [reading_execute] at reported
    exact inside_of_mem_errors reported
  · obtain ⟨program, accepted, among⟩ := mem_outcomes_execute failed
    obtain ⟨i, found⟩ := List.mem_iff_getElem?.1 among
    obtain ⟨span, located, start, stop⟩ := exists_span_of_run accepted found
    have inside : span.stop ≤ source.length :=
      stop_le_length_of_mem_spans (List.mem_of_getElem? located)
    constructor
    · exact Int.le_trans (Int.natCast_nonneg _) start
    · exact Int.lt_of_lt_of_le stop (Int.ofNat_le.2 inside)

/-- Errors point into the expression that failed, and never to where a value comes from. So each
error of a run lies in the span of its own expression, each error found while reading lies in the
source, and all that an execution shows as errors is shown with its line and a marker. -/
theorem errors_point_into_source :
    (∀ (tracing : Bool) (level : Int) (e : Expr) (m : Machine) (err : EvalError),
      (evalTop tracing level e m).1 = .error (.error err) →
      err.diagnostic.length = noLoc ∧ ∃ node ∈ e.nodes, err.loc = node.loc) ∧
    (∀ (source : Bytes) (program : List Expr), (read source).program = .ok program →
      List.Forall₂ (fun e span => span.Covers e) program (spans source) ∧
      (spans source).Pairwise (fun a b => a.stop ≤ b.start) ∧
      ∀ (tracing : Bool) (m : Machine) (i : Nat) (err : EvalError),
        (run tracing program m).1[i]? = some (.error (.error err)) →
        ∃ span, (spans source)[i]? = some span ∧ span.Holds err.loc) ∧
    (∀ source : Bytes, ∀ e ∈ (read source).errors, e.diagnostic.Inside source) ∧
    ∀ (tracing : Bool) (source : Bytes) (m : Machine),
      ∀ d ∈ (execute tracing source m).1.diagnostics,
        d.Inside source ∧ d.display source = d.heading ++ d.excerpt source ∧
        d.display source <:+: (execute tracing source m).1.report tracing source := by
  refine ⟨fun _ _ _ _ _ failed => ⟨rfl, loc_of_evalTop failed⟩, ?_,
    fun _ _ reported => inside_of_mem_errors reported, ?_⟩
  · intro source program accepted
    exact ⟨spans_cover_program accepted, pairwise_spans source,
      fun _ _ _ _ failed => exists_span_of_run accepted failed⟩
  · intro tracing source m d member
    have inside := inside_of_mem_diagnostics member
    exact ⟨inside, inside.display, Execution.display_infix_report member tracing source⟩

/-- The value of `x` comes from elsewhere, but the error is located at `x`. -/
theorem errors_point_into_source_bound :
    let m : Machine := { scopes := [Frame.empty.set (bytes "x") (.string 700 (bytes "a"))] }
    -- (+ x)
    let e := Expr.list 0 [.symbol 1 (bytes "+"), .symbol 3 (bytes "x")]
    let err : EvalError := ⟨.notNumber (.arithmetic .add) .string, 3⟩
    (evalTop true 0 e m).1 = .error (.error err) ∧ err.diagnostic.length = noLoc ∧
      ∃ node ∈ e.nodes, err.loc = node.loc := by
  intro m e err
  have failed : (evalTop true 0 e m).1 = .error (.error err) := rfl
  exact ⟨failed, errors_point_into_source.1 true 0 e m err failed⟩

end Sketch
