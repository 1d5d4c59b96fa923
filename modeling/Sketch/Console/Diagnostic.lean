import Sketch.Eval.Fault
import Sketch.Source.Flaw

/-! Errors as they are shown: the message, the line of the source it is about, and a marker under
the text to blame. -/
namespace Sketch

structure Diagnostic where
  message : Bytes
  loc : Int
  /-- How many bytes to mark, where known. -/
  length : Int := noLoc

def ParseError.diagnostic (e : ParseError) : Diagnostic := ⟨e.flaw.message, e.loc, e.flaw.length⟩

def EvalError.diagnostic (e : EvalError) : Diagnostic := ⟨e.message, e.loc, noLoc⟩

/-- The part of the line holding `offset` that stands before it. -/
def lineBefore (source : Bytes) (offset : Nat) : Bytes :=
  ((source.take offset).reverse.takeWhile (· != newline)).reverse

/-- The part of the line holding `offset` from there on. -/
def lineFrom (source : Bytes) (offset : Nat) : Bytes :=
  (source.drop offset).takeWhile (· != newline)

namespace Diagnostic

/-- Blanks as wide as the text above them, which may hold tabs. -/
def padding (text : Bytes) : Bytes := text.map fun c => if c == tab then tab else blank

def marker (length : Int) : Bytes := bytes "^" ++ List.replicate (length - 1).toNat 126

/-- Without a location in the source only the message is shown. -/
def display (source : Bytes) (d : Diagnostic) : Bytes :=
  let heading := bytes "[error] " ++ untilNul d.message ++ [newline]
  if d.loc < 0 ∨ source.length < d.loc then heading
  else
    let before := lineBefore source d.loc.toNat
    heading ++ blanks 8 ++ untilNul (before ++ lineFrom source d.loc.toNat) ++ [newline]
      ++ blanks 8 ++ padding before ++ marker d.length ++ [newline]

end Diagnostic

end Sketch
