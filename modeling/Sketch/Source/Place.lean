import Sketch.Bytes

/-! A place in a source: how many bytes lie behind it and which bytes are still ahead. Reading only
ever moves a place forward. -/
namespace Sketch

structure Place where
  pos : Nat
  rest : Bytes

namespace Place

def start (source : Bytes) : Place := ⟨0, source⟩

def advance (p : Place) (count : Nat) : Place := ⟨p.pos + count, p.rest.drop count⟩

def hasNext (p : Place) : Bool := !p.rest.isEmpty

/-- The next byte and the place behind it. -/
def next? (p : Place) : Option (UInt8 × Place) :=
  match p.rest with
  | [] => none
  | c :: rest => some (c, ⟨p.pos + 1, rest⟩)

def skipBlanks (p : Place) : Place := p.advance (p.rest.takeWhile isBlank).length

@[simp] theorem pos_advance (p : Place) (count : Nat) : (p.advance count).pos = p.pos + count := rfl

@[simp] theorem rest_advance (p : Place) (count : Nat) :
    (p.advance count).rest = p.rest.drop count := rfl

theorem rest_skipBlanks (p : Place) : p.skipBlanks.rest = p.rest.dropWhile isBlank := by
  simp only [skipBlanks, rest_advance]
  induction p.rest with
  | nil => rfl
  | cons c cs ih => by_cases h : isBlank c <;> simp [h, ih]

theorem length_rest_skipBlanks_le (p : Place) : p.skipBlanks.rest.length ≤ p.rest.length := by
  simp [skipBlanks]

theorem next?_eq_some {p q : Place} {c : UInt8} (found : p.next? = some (c, q)) :
    p.rest = c :: q.rest ∧ q.pos = p.pos + 1 := by
  unfold next? at found
  split at found
  · contradiction
  · cases found; simp_all

theorem length_rest_of_next? {p q : Place} {c : UInt8} (found : p.next? = some (c, q)) :
    q.rest.length + 1 = p.rest.length := by
  simp [(next?_eq_some found).1]

end Place

end Sketch
