import Sketch.Source.Place

/-! A cursor is a place together with its whole source, so that it can also look around and cut out
any part. Requests outside the source are answered, never refused. -/
namespace Sketch

structure Cursor where
  source : Bytes
  place : Place

namespace Cursor

def start (source : Bytes) : Cursor := ⟨source, .start source⟩

def pos (c : Cursor) : Nat := c.place.pos

def hasNext (c : Cursor) : Bool := c.place.hasNext

/-- The byte `offset` bytes away, or zero outside the source. -/
def peek (c : Cursor) (offset : Int) : UInt8 :=
  let index := c.pos + offset
  if index < 0 then 0 else c.source[index.toNat]?.getD 0

/-- The next byte, or zero without moving at the end. -/
def next (c : Cursor) : UInt8 × Cursor :=
  match c.place.next? with
  | none => (0, c)
  | some (byte, place) => (byte, { c with place })

def skipBlanks (c : Cursor) : Cursor := { c with place := c.place.skipBlanks }

/-- The bytes from `first` to before `last`. A negative `first` is the start of the source, and a
`last` that is negative or too large is its end. -/
def slice (c : Cursor) (first last : Int) : Bytes :=
  let last := if last < 0 ∨ c.source.length < last then c.source.length else last.toNat
  (c.source.take last).drop first.toNat

end Cursor

end Sketch
