import Sketch.Bytes

/-! Number tokens of a source: an optional minus sign, digits, and optionally a point followed by
more digits. -/
namespace Sketch

structure Numeral where
  negative : Bool
  whole : Bytes
  fraction : Bytes

namespace Numeral

/-- Bytes that a number token runs over after its first one. -/
def continues (c : UInt8) : Bool := isDigit c || c == dot

/-- A number token starts at a digit, or at a minus sign directly before a digit. -/
def starts (c : UInt8) (rest : Bytes) : Bool :=
  isDigit c || (c == minus && rest.head?.any isDigit)

def unsigned? (negative : Bool) (token : Bytes) : Option Numeral :=
  let whole := token.takeWhile isDigit
  if whole.isEmpty then none
  else match token.dropWhile isDigit with
    | [] => some ⟨negative, whole, []⟩
    | c :: fraction =>
      if c == dot && !fraction.isEmpty && fraction.all isDigit
      then some ⟨negative, whole, fraction⟩ else none

/-- The numeral that a whole token spells, if it is well formed. -/
def ofToken? : Bytes → Option Numeral
  | [] => none
  | c :: rest => if c == minus then unsigned? true rest else unsigned? false (c :: rest)

/-- The nearest double. A negated zero keeps its sign. -/
def value (n : Numeral) : Float :=
  let magnitude := Float.ofScientific (digitsValue (n.whole ++ n.fraction)) true n.fraction.length
  if n.negative then -magnitude else magnitude

end Numeral

end Sketch
