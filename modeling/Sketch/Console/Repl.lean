import Sketch.Console.Line
import Sketch.Console.Report

/-! The conversation: each line is a source of its own, run on a machine that lives as long as the
conversation does. -/
namespace Sketch

/-- The longest line that is accepted. -/
def maxLineLength : Nat := 1023

inductive Command where
  | refuse
  | help
  | again
  | source (text : Bytes)
  deriving DecidableEq

def Line.command (line : Line) : Command :=
  if line.tooLong then .refuse
  else if line.text = bytes "?" then .help
  else if line.text = bytes "+" then .again
  else .source line.text

structure Repl where
  machine : Machine
  /-- The last source that was run. -/
  last : Bytes := []

namespace Repl

/-- The source that a command runs, `last` being the one before it. -/
def source? (last : Bytes) : Command → Option Bytes
  | .refuse | .help => none
  | .again => some last
  | .source text => some text

/-- What a command shows before anything is run. -/
def preface (last : Bytes) : Command → Bytes
  | .refuse =>
    bytes "[error] Line too long, at most " ++ decimal maxLineLength ++ bytes " characters\n"
  | .help =>
    bytes "   Toplevel REPL. Ctrl-D returns to OS.\n"
      ++ bytes "   +<enter> repeats last command.\n"
      ++ bytes "   sexprs<enter> evals the s-expressions.\n"
      ++ bytes "   Bindings made with set and drawing settings persist between lines.\n"
  | .again => last ++ [newline]
  | .source _ => []

def respond (tracing : Bool) (command : Command) : StateM Repl Bytes := fun repl =>
  let preface := preface repl.last command
  match source? repl.last command with
  | none => (preface, repl)
  | some source =>
    let (execution, machine) := execute tracing source repl.machine
    (preface ++ execution.report tracing source, ⟨machine, source⟩)

def prompt : Bytes := bytes "sketchlisp> "

def banner (width height : Float) : Bytes :=
  bytes "Surface " ++ significant 6 width ++ bytes "x" ++ significant 6 height
    ++ bytes ". Type ?<enter> for help.\n"

/-- Answers each line behind a prompt, and the end of the input with a newline. -/
def converse (tracing : Bool) (lines : List Line) : StateM Repl Bytes := do
  let answers ← lines.mapM fun line => return prompt ++ (← respond tracing line.command)
  return answers.flatten ++ prompt ++ [newline]

end Repl

end Sketch
