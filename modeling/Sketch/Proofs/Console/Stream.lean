import Mathlib.Data.List.TakeWhile
import Sketch.Console.Line

/-! A stream as lines. Whatever bytes it holds, reading takes whole lines from it, at least one at a
time. Without zero bytes it takes them one by one, so that the lines read are the lines of the
stream, and each of them is judged by its own bytes alone. -/
namespace Sketch

/-- The lines of a stream, each with its newline, which only the last one may lack. -/
def streamLines : Bytes → List Bytes
  | [] => []
  | c :: rest =>
    if c = newline then [c] :: streamLines rest
    else match streamLines rest with
      | [] => [[c]]
      | line :: later => (c :: line) :: later

/-- A line without its newline. -/
def lineContent (line : Bytes) : Bytes := line.takeWhile (· != newline)

/-- A line without the carriage return at its end. -/
def withoutReturn (content : Bytes) : Bytes :=
  if content.getLast? = some carriageReturn then content.dropLast else content

/-- What is read of a line where there is room for so many bytes. -/
def Line.ofContent (room : Nat) (content : Bytes) : Line :=
  if room < (withoutReturn content).length then ⟨[], true⟩
  else ⟨content.takeWhile (· != carriageReturn), false⟩

theorem flatten_streamLines (input : Bytes) : (streamLines input).flatten = input := by
  fun_induction streamLines input with
  | case1 => rfl
  | case2 rest ih => simp [ih]
  | case3 c rest other none ih => simpa [none] using ih
  | case4 c rest other line later some ih => simpa [some] using ih

theorem streamLines_eq_nil {input : Bytes} : streamLines input = [] ↔ input = [] := by
  constructor
  · intro none
    rw [← flatten_streamLines input, none, List.flatten_nil]
  · rintro rfl
    rfl

/-- Behind a newline the lines start afresh. -/
theorem streamLines_append (front rest : Bytes) :
    streamLines (front ++ newline :: rest) =
      streamLines (front ++ [newline]) ++ streamLines rest := by
  induction front with
  | nil => simp [streamLines]
  | cons c front ih =>
    by_cases ends : c = newline
    · simp [streamLines, ends, ih]
    · obtain ⟨line, later, cut⟩ : ∃ line later, streamLines (front ++ [newline]) = line :: later :=
        List.exists_cons_of_ne_nil (mt streamLines_eq_nil.1 (by simp))
      rw [cut] at ih
      simp [streamLines, ends, ih, cut]

theorem streamLines_append_newline {content : Bytes} (single : newline ∉ content) (rest : Bytes) :
    streamLines (content ++ newline :: rest) = (content ++ [newline]) :: streamLines rest := by
  induction content with
  | nil => simp [streamLines]
  | cons c content ih =>
    rw [List.mem_cons, not_or] at single
    rw [List.cons_append, streamLines, if_neg (Ne.symm single.1), ih single.2]
    rfl

theorem streamLines_of_not_mem {content : Bytes} (nonempty : content ≠ [])
    (single : newline ∉ content) : streamLines content = [content] := by
  induction content with
  | nil => contradiction
  | cons c content ih =>
    rw [List.mem_cons, not_or] at single
    rw [streamLines, if_neg (Ne.symm single.1)]
    by_cases last : content = []
    · subst last
      rfl
    · rw [ih last single.2]

theorem firstLine_append_afterLine (input : Bytes) :
    firstLine input ++ afterLine input = input := by
  rw [firstLine, afterLine, List.append_assoc, List.take_append_drop,
    List.takeWhile_append_dropWhile]

theorem drop_length_firstLine (input : Bytes) :
    input.drop (firstLine input).length = afterLine input := by
  calc input.drop (firstLine input).length
      = (firstLine input ++ afterLine input).drop (firstLine input).length := by
        rw [firstLine_append_afterLine]
    _ = afterLine input := List.drop_left

theorem not_mem_lineContent (line : Bytes) : newline ∉ lineContent line := by
  intro member
  simpa using List.mem_takeWhile_imp member

theorem bne_newline_of_mem {content : Bytes} (single : newline ∉ content) :
    ∀ c ∈ content, (c != newline) = true := by
  intro c member
  simpa using fun same : c = newline => single (same ▸ member)

/-- What closes a line that `rest` stands behind: its newline, or the end of the stream. -/
def Closes (closing rest : Bytes) : Prop :=
  closing = newline :: rest ∨ closing = [] ∧ rest = []

theorem firstLine_append {content closing rest : Bytes} (single : newline ∉ content)
    (closes : Closes closing rest) :
    firstLine (content ++ closing) = content ++ closing.take 1 := by
  have other := bne_newline_of_mem single
  rw [firstLine, List.takeWhile_append_of_pos other, List.dropWhile_append_of_pos other]
  rcases closes with rfl | ⟨rfl, -⟩ <;> simp

theorem afterLine_append {content closing rest : Bytes} (single : newline ∉ content)
    (closes : Closes closing rest) : afterLine (content ++ closing) = rest := by
  have consumed := firstLine_append single closes
  have whole := firstLine_append_afterLine (content ++ closing)
  rw [consumed, List.append_assoc, List.append_cancel_left_eq] at whole
  rcases closes with rfl | ⟨rfl, rfl⟩
  · simpa using whole
  · simpa using whole

/-- A stream starts with a line, whatever closes it. -/
theorem exists_line (input : Bytes) : ∃ content closing rest,
    input = content ++ closing ∧ newline ∉ content ∧ Closes closing rest := by
  refine ⟨lineContent input, input.dropWhile (· != newline),
    (input.dropWhile (· != newline)).drop 1, ?_, not_mem_lineContent input, ?_⟩
  · exact List.takeWhile_append_dropWhile.symm
  · unfold Closes
    cases remaining : input.dropWhile (· != newline) with
    | nil => exact .inr ⟨rfl, rfl⟩
    | cons c rest =>
      have stopped := List.head?_dropWhile_not (· != newline) input
      rw [remaining] at stopped
      exact .inl (by simpa using stopped)

theorem streamLines_line {content closing rest : Bytes} (nonempty : content ++ closing ≠ [])
    (single : newline ∉ content) (closes : Closes closing rest) :
    streamLines (content ++ closing) = (content ++ closing.take 1) :: streamLines rest := by
  rcases closes with rfl | ⟨rfl, rfl⟩
  · exact streamLines_append_newline single rest
  · rw [List.append_nil] at nonempty ⊢
    rw [streamLines_of_not_mem nonempty single, List.take_nil, List.append_nil, streamLines]

theorem lineContent_line {content closing rest : Bytes} (single : newline ∉ content)
    (closes : Closes closing rest) : lineContent (content ++ closing.take 1) = content := by
  have other := bne_newline_of_mem single
  rw [lineContent, List.takeWhile_append_of_pos other]
  rcases closes with rfl | ⟨rfl, -⟩ <;> simp

/-- Between the two parts of a stream a line ends. -/
def EndsBetween (consumed rest : Bytes) : Prop := rest = [] ∨ consumed.getLast? = some newline

theorem EndsBetween.streamLines_append {consumed rest : Bytes} (ends : EndsBetween consumed rest) :
    streamLines (consumed ++ rest) = streamLines consumed ++ streamLines rest := by
  rcases ends with rfl | last
  · simp [streamLines]
  · obtain ⟨front, rfl⟩ := List.getLast?_eq_some_iff.1 last
    rw [List.append_assoc, List.singleton_append, Sketch.streamLines_append]

theorem endsBetween_firstLine (input : Bytes) :
    EndsBetween (firstLine input) (afterLine input) := by
  obtain ⟨content, closing, rest, rfl, single, closes⟩ := exists_line input
  rw [firstLine_append single closes, afterLine_append single closes]
  rcases closes with rfl | ⟨rfl, rfl⟩
  · exact .inr (by simp)
  · exact .inl rfl

theorem EndsBetween.after {consumed rest : Bytes} (ends : EndsBetween consumed rest)
    (before : Bytes) : EndsBetween (before ++ consumed) rest := by
  rcases ends with none | last
  · exact .inl none
  · obtain ⟨front, rfl⟩ := List.getLast?_eq_some_iff.1 last
    exact .inr (by simp)

/-- Only the whole first line reaches as far as a newline. -/
theorem eq_length_firstLine {count : Nat} {input : Bytes}
    (within : count ≤ (firstLine input).length) (seen : newline ∈ input.take count) :
    count = (firstLine input).length := by
  by_contra short
  have bound : (firstLine input).length ≤ (lineContent input).length + 1 := by
    rw [firstLine, List.length_append, List.length_take, lineContent]
    omega
  have inside : input.take count = (lineContent input).take count := by
    calc input.take count
        = (lineContent input ++ input.dropWhile (· != newline)).take count := by
          rw [lineContent, List.takeWhile_append_dropWhile]
      _ = (lineContent input).take count := List.take_append_of_le_length (by omega)
  rw [inside] at seen
  exact not_mem_lineContent input (List.mem_of_mem_take seen)

theorem exists_skipped_return (rest : Bytes) : ∃ skipped,
    rest = skipped ++ if rest.head? = some carriageReturn then rest.tail else rest := by
  split
  · next first =>
    obtain ⟨after, remaining⟩ := List.head?_eq_some_iff.1 first
    exact ⟨[carriageReturn], by rw [remaining]; rfl⟩
  · exact ⟨[], rfl⟩

/-- Whatever bytes there are, a line that is read leaves the stream where a line ends. -/
theorem exists_consumed_of_readLine? {room : Nat} {input rest : Bytes} {line : Line}
    (found : readLine? room input = some (line, rest)) :
    ∃ consumed, input = consumed ++ rest ∧ EndsBetween consumed rest := by
  unfold readLine? at found
  split at found
  · contradiction
  dsimp only at found
  have within := Nat.min_le_right room (firstLine input).length
  generalize min room (firstLine input).length = count at found within
  split at found
  · next last =>
    have seen : newline ∈ input.take count :=
      (List.takeWhile_prefix _).subset (List.mem_of_getLast? last)
    cases found
    rw [eq_length_firstLine within seen, drop_length_firstLine]
    exact ⟨firstLine input, (firstLine_append_afterLine input).symm, endsBetween_firstLine input⟩
  · obtain ⟨skipped, split⟩ := exists_skipped_return (input.drop count)
    generalize (if (input.drop count).head? = some carriageReturn then (input.drop count).tail
      else input.drop count) = remaining at found split
    have whole : input = input.take count ++ skipped ++ remaining := by
      rw [List.append_assoc, ← split, List.take_append_drop]
    generalize input.take count ++ skipped = before at whole
    subst whole
    cases remaining with
    | nil =>
      cases found
      exact ⟨before, rfl, .inl rfl⟩
    | cons c after =>
      dsimp only at found
      split at found
      · next ends =>
        cases found
        rw [beq_iff_eq] at ends
        subst ends
        exact ⟨before ++ [newline], by simp, .inr (by simp)⟩
      · simp only [Option.some.injEq, Prod.mk.injEq] at found
        rw [← found.2]
        refine ⟨before ++ firstLine (c :: after), ?_, (endsBetween_firstLine _).after before⟩
        rw [List.append_assoc, firstLine_append_afterLine]

theorem takeWhile_of_single {content : Bytes} (single : newline ∉ content) :
    content.takeWhile (fun c => c != carriageReturn && c != newline) =
      content.takeWhile (· != carriageReturn) := by
  induction content with
  | nil => rfl
  | cons c content ih =>
    rw [List.mem_cons, not_or] at single
    have other : (c != newline) = true := by simpa using Ne.symm single.1
    simp only [List.takeWhile_cons, other, Bool.and_true, ih single.2]

/-- Where what is seen of a line does not reach its newline, the line is judged by what comes next,
a carriage return apart. -/
theorem readLine?_of_front {room : Nat} {front rest : Bytes} (nonempty : front ++ rest ≠ [])
    (count : min room (firstLine (front ++ rest)).length = front.length)
    (clean : 0 ∉ front) (single : newline ∉ front) (remaining : Bytes)
    (next : remaining = if rest.head? = some carriageReturn then rest.tail else rest) :
    let line : Line := ⟨front.takeWhile (· != carriageReturn), false⟩
    (remaining = [] → readLine? room (front ++ rest) = some (line, [])) ∧
    (∀ after, remaining = newline :: after →
      readLine? room (front ++ rest) = some (line, after)) ∧
    ∀ c after, c ≠ newline → remaining = c :: after →
      readLine? room (front ++ rest) = some (⟨[], true⟩, afterLine remaining) := by
  intro line
  have unfinished : front.getLast? ≠ some newline := fun last => single (List.mem_of_getLast? last)
  unfold readLine?
  rw [if_neg (by simpa using nonempty)]
  simp only [count, List.take_left, List.drop_left, untilNul_eq_self clean, if_neg unfinished,
    takeWhile_of_single single, ← next]
  refine ⟨?_, ?_, ?_⟩
  · rintro rfl
    rfl
  · rintro after rfl
    rfl
  · rintro c after other rfl
    simp [other]

theorem readLine?_of_seen {room : Nat} {content : Bytes} (clean : 0 ∉ content)
    (single : newline ∉ content) (fits : content.length < room) (rest : Bytes) :
    readLine? room (content ++ newline :: rest) =
      some (⟨content.takeWhile (· != carriageReturn), false⟩, rest) := by
  have line := firstLine_append single (.inl rfl : Closes (newline :: rest) rest)
  have count : min room (content ++ [newline]).length = (content ++ [newline]).length := by
    rw [List.length_append, List.length_singleton]
    omega
  have cleanLine : 0 ∉ content ++ [newline] := by
    rw [List.mem_append, not_or]
    exact ⟨clean, by decide⟩
  have text : (content ++ [newline]).takeWhile (fun c => c != carriageReturn && c != newline) =
      content.takeWhile (· != carriageReturn) := by
    rw [takeWhile_append_of_stop (by decide), takeWhile_of_single single]
  have split : content ++ newline :: rest = (content ++ [newline]) ++ rest := by simp
  have last : (content ++ [newline]).getLast? = some newline := by simp
  unfold readLine?
  rw [if_neg (by simp), line, List.take_succ_cons, List.take_zero, count, split]
  simp only [List.take_left, List.drop_left, untilNul_eq_self cleanLine, text, last, if_true]

/-- A line that fits is read up to its newline, which is seen together with it or looked for. -/
theorem readLine?_of_fits {room : Nat} {content closing rest : Bytes}
    (nonempty : content ++ closing ≠ []) (clean : 0 ∉ content) (single : newline ∉ content)
    (closes : Closes closing rest) (fits : content.length ≤ room) :
    readLine? room (content ++ closing) =
      some (⟨content.takeWhile (· != carriageReturn), false⟩, rest) := by
  by_cases seen : content.length < room ∧ closing = newline :: rest
  · obtain ⟨shorter, rfl⟩ := seen
    exact readLine?_of_seen clean single shorter rest
  · have count : min room (firstLine (content ++ closing)).length = content.length := by
      rw [firstLine_append single closes, List.length_append]
      rcases closes with rfl | ⟨rfl, -⟩
      · have full : ¬ content.length < room := fun shorter => seen ⟨shorter, rfl⟩
        rw [List.take_succ_cons, List.take_zero, List.length_singleton]
        omega
      · rw [List.take_nil, List.length_nil]
        omega
    have next : closing =
        if closing.head? = some carriageReturn then closing.tail else closing := by
      rcases closes with rfl | ⟨rfl, -⟩ <;> rfl
    obtain ⟨atEnd, atNewline, -⟩ := readLine?_of_front nonempty count clean single closing next
    rcases closes with rfl | ⟨rfl, rfl⟩
    · exact atNewline rest rfl
    · exact atEnd rfl

/-- Of a line that does not fit, only a last carriage return may be missing. -/
theorem readLine?_of_exceeds {room : Nat} {front more closing rest : Bytes} {c : UInt8}
    (clean : 0 ∉ front ++ c :: more) (single : newline ∉ front ++ c :: more)
    (closes : Closes closing rest) (filled : front.length = room) :
    readLine? room (front ++ c :: more ++ closing) =
      some (if c = carriageReturn ∧ more = [] then ⟨front.takeWhile (· != carriageReturn), false⟩
        else ⟨[], true⟩, rest) := by
  have count : min room (firstLine (front ++ (c :: more ++ closing))).length = front.length := by
    rw [← List.append_assoc, firstLine_append single closes]
    simp only [List.length_append, List.length_cons]
    omega
  rw [List.mem_append, not_or] at clean single
  obtain ⟨other, singleMore⟩ : newline ≠ c ∧ newline ∉ more := by
    simpa [List.mem_cons, not_or] using single.2
  rw [List.append_assoc]
  by_cases isReturn : c = carriageReturn
  · subst isReturn
    obtain ⟨atEnd, atNewline, beyond⟩ := readLine?_of_front (by simp) count clean.1 single.1
      (more ++ closing) rfl
    cases more with
    | nil =>
      rw [if_pos ⟨rfl, rfl⟩]
      rcases closes with rfl | ⟨rfl, rfl⟩
      · exact atNewline rest rfl
      · exact atEnd rfl
    | cons x more =>
      have further : x ≠ newline := fun same => singleMore (same ▸ List.mem_cons_self)
      rw [beyond x (more ++ closing) further rfl, afterLine_append singleMore closes,
        if_neg (by simp)]
  · have next : c :: more ++ closing = if (c :: more ++ closing).head? = some carriageReturn
        then (c :: more ++ closing).tail else c :: more ++ closing := by
      rw [if_neg (by simpa using isReturn)]
    obtain ⟨-, -, beyond⟩ := readLine?_of_front (by simp) count clean.1 single.1 _ next
    rw [beyond c (more ++ closing) (Ne.symm other) rfl, afterLine_append single.2 closes,
      if_neg fun both => isReturn both.1]

theorem Line.ofContent_of_fits {room : Nat} {content : Bytes} (fits : content.length ≤ room) :
    Line.ofContent room content = ⟨content.takeWhile (· != carriageReturn), false⟩ := by
  have shorter : (withoutReturn content).length ≤ content.length := by
    unfold withoutReturn
    split <;> simp
  rw [Line.ofContent, if_neg (by omega)]

theorem Line.ofContent_of_exceeds {room : Nat} {front more : Bytes} {c : UInt8}
    (filled : front.length = room) :
    Line.ofContent room (front ++ c :: more) =
      if c = carriageReturn ∧ more = [] then ⟨front.takeWhile (· != carriageReturn), false⟩
      else ⟨[], true⟩ := by
  split
  · next last =>
    obtain ⟨rfl, rfl⟩ := last
    have shorter : withoutReturn (front ++ [carriageReturn]) = front := by simp [withoutReturn]
    rw [Line.ofContent, shorter, if_neg (by omega), takeWhile_append_of_stop (by decide)]
  · next other =>
    have longer : room < (withoutReturn (front ++ c :: more)).length := by
      unfold withoutReturn
      split
      · next last =>
        cases more with
        | nil => simp_all
        | cons x more =>
          simp only [List.length_dropLast, List.length_append, List.length_cons]
          omega
      · simp only [List.length_append, List.length_cons]
        omega
    rw [Line.ofContent, if_pos longer]

/-- A line without zero bytes is read by itself, and what it is read as depends on it alone. -/
theorem readLine?_line (room : Nat) {content closing rest : Bytes}
    (nonempty : content ++ closing ≠ []) (clean : 0 ∉ content) (single : newline ∉ content)
    (closes : Closes closing rest) :
    readLine? room (content ++ closing) = some (Line.ofContent room content, rest) := by
  by_cases fits : content.length ≤ room
  · rw [readLine?_of_fits nonempty clean single closes fits, Line.ofContent_of_fits fits]
  · obtain ⟨c, more, exceeding⟩ : ∃ c more, content.drop room = c :: more :=
      List.exists_cons_of_ne_nil (by simpa using fits)
    have filled : (content.take room).length = room := by
      rw [List.length_take]
      omega
    have split : content = content.take room ++ c :: more := by
      rw [← exceeding, List.take_append_drop]
    rw [split] at clean single ⊢
    rw [readLine?_of_exceeds clean single closes filled, Line.ofContent_of_exceeds filled]

theorem readLine?_eq_none {room : Nat} {input : Bytes} :
    readLine? room input = none ↔ input = [] := by
  constructor
  · intro none
    unfold readLine? at none
    split at none
    · next empty => simpa using empty
    dsimp only at none
    split at none
    · contradiction
    split at none
    · contradiction
    split at none <;> contradiction
  · rintro rfl
    rfl

/-- Without zero bytes, the lines read are the lines of the stream. -/
theorem readLines_eq_map {room : Nat} (capacity : 0 < room) {input : Bytes} (clean : 0 ∉ input) :
    readLines room capacity input =
      (streamLines input).map fun line => Line.ofContent room (lineContent line) := by
  fun_induction readLines room capacity input with
  | case1 input none =>
    rw [readLine?_eq_none.1 none]
    rfl
  | case2 input line rest found shorter ih =>
    obtain ⟨content, closing, rest', rfl, single, closes⟩ := exists_line input
    have nonempty : content ++ closing ≠ [] := by
      intro empty
      rw [readLine?_eq_none.2 empty] at found
      contradiction
    have cleanContent : 0 ∉ content := fun member => clean (List.mem_append_left _ member)
    have cleanRest : 0 ∉ rest' := by
      rcases closes with rfl | ⟨rfl, rfl⟩
      · exact fun member => clean (by simp [member])
      · simp
    have read := readLine?_line room nonempty cleanContent single closes
    cases found.symm.trans read
    rw [streamLines_line nonempty single closes, List.map_cons, lineContent_line single closes,
      ih cleanRest]

/-- Reading fails at the end of the stream only, and takes whole lines otherwise, at least one and
never a part of one. Where there are no zero bytes it takes exactly one: a line that is longer than
there is room, one carriage return at its end not counted, is told to be too long and is empty, and
any other is given up to its first carriage return. Line by line this is the whole stream. -/
theorem lines_read_whole {room : Nat} (capacity : 0 < room) (input : Bytes) :
    (readLine? room input = none ↔ input = []) ∧
    (∀ line rest, readLine? room input = some (line, rest) → ∃ whole, whole ≠ [] ∧
      streamLines input = whole ++ streamLines rest ∧ input = whole.flatten ++ rest ∧
      (rest = [] ∨ whole.flatten.getLast? = some newline)) ∧
    (0 ∉ input →
      (∀ first later, streamLines input = first :: later →
        readLine? room input =
          some (Line.ofContent room (lineContent first), later.flatten)) ∧
      readLines room capacity input =
        (streamLines input).map fun line => Line.ofContent room (lineContent line)) := by
  refine ⟨readLine?_eq_none, fun line rest found => ?_, fun clean => ⟨fun first later cut => ?_,
    readLines_eq_map capacity clean⟩⟩
  · obtain ⟨consumed, rfl, ends⟩ := exists_consumed_of_readLine? found
    have taken : consumed ≠ [] := by
      rintro rfl
      exact absurd (length_rest_of_readLine? capacity found) (Nat.lt_irrefl _)
    refine ⟨streamLines consumed, mt streamLines_eq_nil.1 taken, ends.streamLines_append, ?_, ?_⟩
    · rw [flatten_streamLines]
    · rw [flatten_streamLines]
      exact ends
  · obtain ⟨content, closing, rest, rfl, single, closes⟩ := exists_line input
    have nonempty : content ++ closing ≠ [] := by
      intro empty
      rw [streamLines_eq_nil.2 empty] at cut
      contradiction
    have cleanContent : 0 ∉ content := fun member => clean (List.mem_append_left _ member)
    rw [streamLines_line nonempty single closes] at cut
    cases cut
    rw [readLine?_line room nonempty cleanContent single closes, lineContent_line single closes,
      flatten_streamLines]

/-- With room for three bytes: a line that is just full and has a carriage return, one that is one
byte longer, and one with a carriage return inside that nothing closes. -/
theorem lines_read_whole_just_full :
    let input := bytes "abc\r\nabcd\nx\ry"
    0 ∉ input ∧ streamLines input = [bytes "abc\r\n", bytes "abcd\n", bytes "x\ry"] ∧
      readLines 3 (by decide) input = [⟨bytes "abc", false⟩, ⟨[], true⟩, ⟨bytes "x", false⟩] := by
  intro input
  have clean : 0 ∉ input := by decide
  obtain ⟨-, -, told⟩ := lines_read_whole (by decide : 0 < 3) input
  exact ⟨clean, by decide, (told clean).2.trans (by decide)⟩

end Sketch
