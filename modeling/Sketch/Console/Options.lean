import Sketch.Number.Lenient

/-! The command line. -/
namespace Sketch

structure Options where
  tracing : Bool := false
  width : Float := 800
  height : Float := 600
  /-- The file to run instead of a conversation. -/
  file? : Option Bytes := none

namespace Options

/-- Reads arguments one by one into `options`; none if one of them makes no sense. -/
def parseInto? (options : Options) : List Bytes → Option Options
  | [] => some options
  | arg :: rest =>
    if arg = bytes "-t" then parseInto? { options with tracing := true } rest
    else if arg.head? ≠ some minus then
      if options.file?.isNone then parseInto? { options with file? := some arg } rest else none
    else match rest with
      | [] => none
      | value :: rest =>
        let size := Lenient.number value
        if arg = bytes "-w" then parseInto? { options with width := size } rest
        else if arg = bytes "-h" then parseInto? { options with height := size } rest
        else none

def parse? (args : List Bytes) : Option Options := parseInto? {} args

end Options

end Sketch
