import Sketch.Bytes

/-! Sizes given on the command line. The longest start of the text that spells a number counts:
blanks, a sign, and then a decimal or hexadecimal numeral with an optional exponent, an infinity or
an undefined value. A text that starts with none of these is zero. -/
namespace Sketch.Lenient

def lower (c : UInt8) : UInt8 := if 65 ≤ c && c ≤ 90 then c + 32 else c

/-- Whether the text starts with the lower case `word`, in any case. -/
def startsWith (word : String) (text : Bytes) : Bool :=
  (bytes word).isPrefixOf (text.map lower)

def isHexDigit (c : UInt8) : Bool := isDigit c || (97 ≤ lower c && lower c ≤ 102)

def hexValue (c : UInt8) : Nat := if isDigit c then digitValue c else (lower c).toNat - 87

/-- Digits with at most one point among them. -/
structure Digits where
  whole : Bytes
  fraction : Bytes
  rest : Bytes

def Digits.read (isDigit : UInt8 → Bool) (text : Bytes) : Digits :=
  let whole := text.takeWhile isDigit
  match text.dropWhile isDigit with
  | [] => ⟨whole, [], []⟩
  | c :: rest =>
    if c == dot then ⟨whole, rest.takeWhile isDigit, rest.dropWhile isDigit⟩
    else ⟨whole, [], c :: rest⟩

def Digits.all (d : Digits) : Bytes := d.whole ++ d.fraction

/-- The exponent behind the lower case letter `mark`; zero unless at least one digit follows. -/
def exponent (mark : UInt8) : Bytes → Int
  | [] => 0
  | c :: rest =>
    if lower c == mark then
      match rest with
      | [] => 0
      | sign :: digits =>
        if sign == minus then -digitsValue (digits.takeWhile isDigit)
        else if sign == plus then digitsValue (digits.takeWhile isDigit)
        else digitsValue (rest.takeWhile isDigit)
    else 0

def infinity : Float := 1.0 / 0.0

/-- `m · 10 ^ e`, rounded once. No double reaches 400 digits before or after the point. -/
def scaleTen (m : Nat) (e : Int) : Float :=
  let size := (decimal m).length + e
  if m = 0 ∨ size < -400 then 0
  else if 400 < size then infinity
  else if 0 ≤ e then Float.ofScientific m false e.toNat
  else Float.ofScientific m true e.natAbs

/-- `m · 2 ^ e`, rounded once. No double has 2000 bits before or after the point. -/
def scaleTwo (m : Nat) (e : Int) : Float :=
  let size := m.log2 + e
  if m = 0 ∨ size < -2000 then 0
  else if 2000 < size then infinity
  else if 0 ≤ e then Float.ofScientific (m <<< e.toNat) false 0
  else Float.ofScientific (m * Nat.pow 5 e.natAbs) true e.natAbs

def decimalNumber? (text : Bytes) : Option Float :=
  let d := Digits.read isDigit text
  if d.all.isEmpty then none
  else some (scaleTen (digitsValue d.all) (exponent 101 d.rest - d.fraction.length))

/-- The number behind `0x`; without any digit there, the zero before the `x` stands alone. -/
def hexNumber (text : Bytes) : Float :=
  let d := Digits.read isHexDigit text
  if d.all.isEmpty then 0
  else
    let m := d.all.foldl (fun value c => 16 * value + hexValue c) 0
    scaleTwo m (exponent 112 d.rest - 4 * d.fraction.length)

def unsigned? (text : Bytes) : Option Float :=
  if startsWith "inf" text then some infinity
  else if startsWith "nan" text then some (0.0 / 0.0)
  else if startsWith "0x" text then some (hexNumber (text.drop 2))
  else decimalNumber? text

/-- The number a text starts with. -/
def number (text : Bytes) : Float :=
  match text.dropWhile isBlank with
  | [] => 0
  | c :: rest =>
    if c == minus then ((unsigned? rest).map (- ·)).getD 0
    else if c == plus then (unsigned? rest).getD 0
    else (unsigned? (c :: rest)).getD 0

end Sketch.Lenient
