/-! Text is a list of bytes: sources, names, messages and output are never decoded, so every
location and every length counts bytes. -/
namespace Sketch

abbrev Bytes := List UInt8

/-- The bytes of a character string. -/
def bytes (text : String) : Bytes := text.toUTF8.data.toList

abbrev tab : UInt8 := 9
abbrev newline : UInt8 := 10
abbrev carriageReturn : UInt8 := 13
abbrev blank : UInt8 := 32
abbrev quote : UInt8 := 34
abbrev lparen : UInt8 := 40
abbrev rparen : UInt8 := 41
abbrev plus : UInt8 := 43
abbrev minus : UInt8 := 45
abbrev dot : UInt8 := 46

/-- Blanks are the space and the five control characters from tab to carriage return. -/
def isBlank (c : UInt8) : Bool := c == blank || (tab ≤ c && c ≤ carriageReturn)

def isDigit (c : UInt8) : Bool := 48 ≤ c && c ≤ 57

/-- What a display that takes a zero byte for the end of a text shows of it. -/
def untilNul (text : Bytes) : Bytes := text.takeWhile (· != 0)

def blanks (count : Nat) : Bytes := List.replicate count blank

def decimal (n : Nat) : Bytes := (Nat.toDigits 10 n).map fun digit => digit.toNat.toUInt8

def signedDecimal : Int → Bytes
  | .ofNat n => decimal n
  | .negSucc n => minus :: decimal (n + 1)

/-- Decimal digits padded on the left with zeros to at least `width` of them. -/
def paddedDecimal (width n : Nat) : Bytes :=
  let digits := decimal n
  List.replicate (width - digits.length) 48 ++ digits

def digitValue (c : UInt8) : Nat := c.toNat - 48

def digitsValue (digits : Bytes) : Nat :=
  digits.foldl (fun value c => 10 * value + digitValue c) 0

theorem untilNul_eq_self {text : Bytes} (clean : 0 ∉ text) : untilNul text = text := by
  induction text with
  | nil => rfl
  | cons c cs ih =>
    simp only [List.mem_cons, not_or] at clean
    have differs : (c != 0) = true := by simpa using fun same => clean.1 same.symm
    rw [untilNul, List.takeWhile_cons, differs]
    simpa [untilNul] using ih clean.2

theorem takeWhile_append_of_stop {p : UInt8 → Bool} {w : UInt8} (stops : p w = false)
    (rest more : Bytes) : (rest ++ w :: more).takeWhile p = rest.takeWhile p := by
  rw [List.takeWhile_append]
  split
  · next all =>
    rw [(List.takeWhile_prefix p).eq_of_length all]
    simp [stops]
  · rfl

end Sketch
