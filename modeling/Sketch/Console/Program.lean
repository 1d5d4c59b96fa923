import Sketch.Console.Options
import Sketch.Console.Repl

/-! The program as a whole: from arguments, files and input to an exit status and all its output. -/
namespace Sketch

structure Exit where
  status : Nat
  output : Bytes
  deriving DecidableEq

namespace Options

def machine (options : Options) : Machine := .start options.width options.height

/-- Runs the file `name`, whose contents are missing if it cannot be read. -/
def runFile (options : Options) (name : Bytes) : Option Bytes → Exit
  | none => ⟨1, bytes "[error] Cannot open file " ++ name ++ [newline]⟩
  | some source =>
    let (execution, _) := execute options.tracing source options.machine
    ⟨if execution.succeeded then 0 else 1,
      bytes "[ load] " ++ name ++ newline :: execution.report options.tracing source⟩

def converse (options : Options) (input : Bytes) : Exit :=
  let lines := readLines maxLineLength (by decide) input
  let (output, _) := Repl.converse options.tracing lines { machine := options.machine }
  ⟨0, Repl.banner options.width options.height ++ output⟩

end Options

def usage : Exit := ⟨2, bytes "usage: sketchlisp [-t] [-w width] [-h height] [file]\n"⟩

/-- `contents?` gives the contents of the files that can be read. -/
def invoke (contents? : Bytes → Option Bytes) (input : Bytes) (args : List Bytes) : Exit :=
  match Options.parse? args with
  | none => usage
  | some options =>
    match options.file? with
    | none => options.converse input
    | some name => options.runFile name (contents? name)

end Sketch
