import Sketch.Console.Program

/-! The executable: reads and prints for the pure program. -/
namespace Sketch.Shell

def contents? (name : Bytes) : IO (Option Bytes) := do
  match String.fromUTF8? ⟨name.toArray⟩ with
  | none => return none
  | some path =>
    try return some (← IO.FS.readBinFile path).data.toList
    catch _ => return none

def write (output : Bytes) : IO Unit := do
  let stdout ← IO.getStdout
  stdout.write ⟨output.toArray⟩
  stdout.flush

/-- The bytes up to and with the next newline, or up to the end of the input. -/
partial def nextLine (line : ByteArray) : IO Bytes := do
  let byte ← (← IO.getStdin).read 1
  let line := line ++ byte
  if byte.isEmpty || byte.data == #[newline] then return line.data.toList else nextLine line

/-- A line that holds a zero byte may need the one after it. -/
def refill (pending : Bytes) : IO Bytes := do
  let pending ← if pending.contains newline then pure pending else nextLine ⟨pending.toArray⟩
  if (firstLine pending).contains 0 && (afterLine pending).isEmpty
  then return pending ++ (← nextLine .empty) else return pending

partial def converse (tracing : Bool) (pending : Bytes) (repl : Repl) : IO Unit := do
  write Repl.prompt
  match readLine? maxLineLength (← refill pending) with
  | none => write [newline]
  | some (line, rest) =>
    let (answer, repl) := Repl.respond tracing line.command repl
    write answer
    converse tracing rest repl

def finish (exit : Exit) : IO UInt32 := do
  write exit.output
  return exit.status.toUInt32

def run (args : List Bytes) : IO UInt32 := do
  match Options.parse? args with
  | none => finish usage
  | some options =>
    match options.file? with
    | some name => finish (options.runFile name (← contents? name))
    | none =>
      write (Repl.banner options.width options.height)
      converse options.tracing [] { machine := options.machine }
      return 0

end Sketch.Shell

def main (args : List String) : IO UInt32 := Sketch.Shell.run (args.map Sketch.bytes)
