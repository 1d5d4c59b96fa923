import Sketch.Expr.Basic
import Sketch.Number.Numeral
import Sketch.Source.Flaw
import Sketch.Source.Place

/-! The reader turns a source into expressions by recursive descent. It never gives up: after an
error it goes on behind the offending text, so one pass finds every error. Along the way it notes
each expression it begins. The reader of an expression starts just behind its first byte, which
stands at `loc`, and has no result exactly when it reported an error.

    expression ::= list | string | number | symbol
    list       ::= '(' expression* ')'
    string     ::= '"' any byte but '"' '"'
    number     ::= '-'? digit+ ('.' digit+)?
    symbol     ::= a run of bytes other than blanks, parentheses and '"'
-/
namespace Sketch

/-- An expression begun inside `level` lists. -/
structure Visit where
  level : Nat
  kind : Kind
  loc : Nat
  deriving DecidableEq

/-- A place with everything noted on the way to it, newest first. -/
structure Scan where
  place : Place
  errors : List ParseError
  visits : List Visit

namespace Scan

def start (source : Bytes) : Scan := ⟨.start source, [], []⟩

def moveTo (s : Scan) (place : Place) : Scan := { s with place }

def report (s : Scan) (flaw : Flaw) (loc : Nat) : Scan :=
  { s with errors := ⟨flaw, loc⟩ :: s.errors }

def visit (s : Scan) (level : Nat) (kind : Kind) (loc : Nat) : Scan :=
  { s with visits := ⟨level, kind, loc⟩ :: s.visits }

@[simp] theorem place_moveTo (s : Scan) (place : Place) : (s.moveTo place).place = place := rfl

@[simp] theorem place_report (s : Scan) (flaw : Flaw) (loc : Nat) :
    (s.report flaw loc).place = s.place := rfl

@[simp] theorem place_visit (s : Scan) (level : Nat) (kind : Kind) (loc : Nat) :
    (s.visit level kind loc).place = s.place := rfl

end Scan

/-- The place behind a list that has `depth` lists open inside it. Parentheses within strings do
not count; without a matching one the end of the source is reached. -/
def skipList (inString : Bool) (depth pos : Nat) : Bytes → Place
  | [] => ⟨pos, []⟩
  | c :: rest =>
    if inString then skipList (c != quote) depth (pos + 1) rest
    else if c == quote then skipList true depth (pos + 1) rest
    else if c == lparen then skipList false (depth + 1) (pos + 1) rest
    else if c == rparen then
      match depth with
      | 0 => ⟨pos + 1, rest⟩
      | depth + 1 => skipList false depth (pos + 1) rest
    else skipList false depth (pos + 1) rest

theorem length_rest_skipList_le (inString : Bool) (depth pos : Nat) (rest : Bytes) :
    (skipList inString depth pos rest).rest.length ≤ rest.length := by
  fun_induction skipList inString depth pos rest <;> simp_all <;> omega

def continuesSymbol (c : UInt8) : Bool :=
  !(isBlank c || c == lparen || c == rparen || c == quote)

def readString (loc : Nat) (s : Scan) : Option Expr × Scan :=
  let text := s.place.rest.takeWhile (· != quote)
  let place := s.place.advance text.length
  match place.next? with
  | none => (none, (s.moveTo place).report (.unclosedString text) loc)
  | some (_, place) => (some (.string loc text), s.moveTo place)

def readNumber (loc : Nat) (first : UInt8) (s : Scan) : Option Expr × Scan :=
  let tail := s.place.rest.takeWhile Numeral.continues
  let s := s.moveTo (s.place.advance tail.length)
  match Numeral.ofToken? (first :: tail) with
  | none => (none, s.report (.badNumber (first :: tail)) loc)
  | some numeral => (some (.number loc numeral.value), s)

def readSymbol (loc : Nat) (first : UInt8) (s : Scan) : Option Expr × Scan :=
  let tail := s.place.rest.takeWhile continuesSymbol
  (some (.symbol loc (first :: tail)), s.moveTo (s.place.advance tail.length))

/-- What a reader started at `s` returns: it cannot move back. -/
abbrev Onward (s : Scan) :=
  { r : Option Expr × Scan // r.2.place.rest.length ≤ s.place.rest.length }

theorem length_rest_readString_le (loc : Nat) (s : Scan) :
    (readString loc s).2.place.rest.length ≤ s.place.rest.length := by
  unfold readString
  dsimp only
  split
  · simp
  · next found =>
    have shorter := Place.length_rest_of_next? found
    simp only [Place.rest_advance, List.length_drop] at shorter
    simp only [Scan.place_moveTo]
    omega

theorem length_rest_readNumber_le (loc : Nat) (first : UInt8) (s : Scan) :
    (readNumber loc first s).2.place.rest.length ≤ s.place.rest.length := by
  unfold readNumber
  dsimp only
  split <;> simp

theorem length_rest_readSymbol_le (loc : Nat) (first : UInt8) (s : Scan) :
    (readSymbol loc first s).2.place.rest.length ≤ s.place.rest.length := by
  simp [readSymbol]

/-- Elements read so far, newest first, unless one of them was missing. -/
def addItem (items : Option (List Expr)) (item : Option Expr) : Option (List Expr) :=
  items.bind fun items => item.map (· :: items)

mutual
/-- Reads the expression with first byte `first`, inside `level` lists of at most `limit`. -/
def readExpr (limit level loc : Nat) (first : UInt8) (s : Scan) : Onward s :=
  if first == lparen then
    if level < limit then
      let r := readItems limit level loc (some []) (s.visit level .list loc)
      ⟨r.val, r.property⟩
    else
      let place := skipList false 0 s.place.pos s.place.rest
      ⟨(none, ((s.visit level .list loc).report .tooDeep loc).moveTo place),
        length_rest_skipList_le ..⟩
  else if first == quote then
    ⟨readString loc (s.visit level .string loc), length_rest_readString_le ..⟩
  else if first == rparen then
    ⟨(none, s.report .strayClose loc), Nat.le_refl _⟩
  else if Numeral.starts first s.place.rest then
    ⟨readNumber loc first (s.visit level .number loc), length_rest_readNumber_le ..⟩
  else
    ⟨readSymbol loc first (s.visit level .symbol loc), length_rest_readSymbol_le ..⟩
termination_by 2 * s.place.rest.length + 1

/-- Reads the elements of the list opened at `loc`, up to its closing parenthesis. -/
def readItems (limit level loc : Nat) (items : Option (List Expr)) (s : Scan) : Onward s :=
  have inside := s.place.length_rest_skipBlanks_le
  match found : s.place.skipBlanks.next? with
  | none => ⟨(none, (s.moveTo s.place.skipBlanks).report .unclosedList loc), inside⟩
  | some (c, place) =>
    have shorter := Place.length_rest_of_next? found
    if c == rparen then
      ⟨(items.map fun items => .list loc items.reverse, s.moveTo place),
        show place.rest.length ≤ s.place.rest.length by omega⟩
    else
      match readExpr limit (level + 1) s.place.skipBlanks.pos c (s.moveTo place) with
      | ⟨(item, t), nearer⟩ =>
        have nearer : t.place.rest.length ≤ place.rest.length := nearer
        let r := readItems limit level loc (addItem items item) t
        ⟨r.val, Nat.le_trans r.property (by omega)⟩
termination_by 2 * s.place.rest.length
end

/-- Passes one byte if nothing has been passed since `start`, so that reading cannot stand still. -/
def Scan.guaranteeProgress (start : Nat) (s : Scan) : Scan :=
  match s.place.next? with
  | none => s
  | some (_, place) => if s.place.pos == start then s.moveTo place else s

theorem length_rest_guaranteeProgress_le (start : Nat) (s : Scan) :
    (s.guaranteeProgress start).place.rest.length ≤ s.place.rest.length := by
  unfold Scan.guaranteeProgress
  split
  · exact Nat.le_refl _
  · next found =>
    have shorter := Place.length_rest_of_next? found
    split
    · simp only [Scan.place_moveTo]
      omega
    · exact Nat.le_refl _

/-- Reads expressions up to the end of the source. One that had errors is left out. -/
def readForms (limit : Nat) (forms : List Expr) (s : Scan) : List Expr × Scan :=
  have inside := s.place.length_rest_skipBlanks_le
  match found : s.place.skipBlanks.next? with
  | none => (forms.reverse, s.moveTo s.place.skipBlanks)
  | some (c, place) =>
    match readExpr limit 0 s.place.skipBlanks.pos c (s.moveTo place) with
    | ⟨(form, t), nearer⟩ =>
      have further : t.place.rest.length < s.place.rest.length := by
        have shorter := Place.length_rest_of_next? found
        simp only [Scan.place_moveTo] at nearer
        omega
      if s.errors.length < t.errors.length then
        have := Nat.lt_of_le_of_lt
          (length_rest_guaranteeProgress_le s.place.skipBlanks.pos t) further
        readForms limit forms (t.guaranteeProgress s.place.skipBlanks.pos)
      else readForms limit (form.getD .nothing :: forms) t
termination_by s.place.rest.length

/-- The whole expressions of a source, its errors and the expressions begun in it, in source
order. -/
structure Reading where
  forms : List Expr
  errors : List ParseError
  visits : List Visit

def read (source : Bytes) : Reading :=
  let (forms, s) := readForms maxDepth [] (.start source)
  ⟨forms, s.errors.reverse, s.visits.reverse⟩

/-- A source is a program only if it has no errors. -/
def Reading.program (r : Reading) : Except (List ParseError) (List Expr) :=
  if r.errors.isEmpty then .ok r.forms else .error r.errors

def Visit.line (v : Visit) : Bytes :=
  bytes "[parse] " ++ paddedDecimal 2 v.level ++ blanks (2 * (v.level + 1)) ++ bytes "> "
    ++ v.kind.name ++ bytes " @" ++ decimal v.loc ++ [newline]

def Reading.trace (r : Reading) : Bytes :=
  r.visits.flatMap Visit.line ++ bytes "[parse] " ++ decimal r.forms.length
    ++ bytes " expression(s), " ++ decimal r.errors.length ++ bytes " error(s)\n"

end Sketch
