import Sketch.Bytes

/-! Lines of limited length. A line that does not fit is passed over as a whole, so that the next
one is read from its start. A zero byte ends what is seen of a line: the line then looks unfinished
even if its newline has been read, and the one after it is taken for its remainder. -/
namespace Sketch

structure Line where
  text : Bytes
  tooLong : Bool
  deriving DecidableEq

/-- The first line with its newline. -/
def firstLine (input : Bytes) : Bytes :=
  input.takeWhile (· != newline) ++ (input.dropWhile (· != newline)).take 1

/-- What follows the first line. -/
def afterLine (input : Bytes) : Bytes := (input.dropWhile (· != newline)).drop 1

/-- Reads the start of a line of at most `room` bytes, a carriage return before its newline not
counted. There is none at the end of the input. -/
def readLine? (room : Nat) (input : Bytes) : Option (Line × Bytes) :=
  if input.isEmpty then none
  else
    let count := min room (firstLine input).length
    let seen := untilNul (input.take count)
    let rest := input.drop count
    let line : Line := ⟨seen.takeWhile (fun c => c != carriageReturn && c != newline), false⟩
    if seen.getLast? = some newline then some (line, rest)
    else
      let rest := if rest.head? = some carriageReturn then rest.tail else rest
      match rest with
      | [] => some (line, [])
      | c :: after =>
        if c == newline then some (line, after) else some (⟨[], true⟩, afterLine rest)

theorem length_firstLine_pos {input : Bytes} (nonempty : input ≠ []) :
    0 < (firstLine input).length := by
  cases input with
  | nil => contradiction
  | cons c cs => by_cases h : c = newline <;> simp [firstLine, h]

theorem length_afterLine_le (input : Bytes) : (afterLine input).length ≤ input.length :=
  ((List.drop_sublist 1 _).trans (List.dropWhile_sublist _)).length_le

/-- Every line read takes something from the input. -/
theorem length_rest_of_readLine? {room : Nat} {input rest : Bytes} {line : Line}
    (capacity : 0 < room) (found : readLine? room input = some (line, rest)) :
    rest.length < input.length := by
  unfold readLine? at found
  split at found
  · contradiction
  next nonempty =>
    have filled : 0 < (firstLine input).length :=
      length_firstLine_pos (by simpa using nonempty)
    have shorter : (input.drop (min room (firstLine input).length)).length < input.length := by
      have : 0 < input.length := List.length_pos_iff.2 (by simpa using nonempty)
      simp only [List.length_drop]
      omega
    dsimp only at found
    split at found
    · cases found; exact shorter
    · have trimmed : ∀ bs : Bytes,
          (if bs.head? = some carriageReturn then bs.tail else bs).length ≤ bs.length := by
        intro bs; split <;> simp
      have trimmed := trimmed (input.drop (min room (firstLine input).length))
      split at found
      · cases found; exact Nat.lt_of_le_of_lt (Nat.zero_le _) shorter
      next remaining =>
        rw [remaining] at trimmed
        simp only [List.length_cons] at trimmed
        split at found
        · cases found; omega
        · simp only [Option.some.injEq, Prod.mk.injEq] at found
          have discarded := length_afterLine_le
            (if (input.drop (min room (firstLine input).length)).head? = some carriageReturn
              then (input.drop (min room (firstLine input).length)).tail
              else input.drop (min room (firstLine input).length))
          rw [← found.2]
          rw [remaining] at discarded ⊢
          simp only [List.length_cons] at discarded
          omega

/-- All the lines of an input. -/
def readLines (room : Nat) (capacity : 0 < room) (input : Bytes) : List Line :=
  match found : readLine? room input with
  | none => []
  | some (line, rest) =>
    have := length_rest_of_readLine? capacity found
    line :: readLines room capacity rest
termination_by input.length

end Sketch
