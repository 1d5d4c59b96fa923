import Sketch.Proofs.Console.Location
import Sketch.Proofs.Console.Stream
import Sketch.Proofs.Source.Cut
import Sketch.Proofs.Source.Marked

/-! The marker under a line. A diagnostic shows the one line of the source that holds its location, and
the caret stands in the column of the byte that is located there. What is marked stays under the line
unless it goes on behind the end of it, which only a string can. -/
namespace Sketch

/-- The line of a source that holds an offset. Its end, where a newline or nothing stands, counts as
held. -/
@[mk_iff]
structure LineAt (source : Bytes) (offset : Nat) (line : Span) : Prop where
  start_le : line.start ≤ offset
  le_stop : offset ≤ line.stop
  inside : line.stop ≤ source.length
  solid : newline ∉ line.cut source
  before : line.start = 0 ∨ source[line.start - 1]? = some newline
  behind : line.stop = source.length ∨ source[line.stop]? = some newline

instance (source : Bytes) (offset : Nat) (line : Span) : Decidable (LineAt source offset line) :=
  decidable_of_iff' _ (lineAt_iff source offset line)

theorem Span.mem_cut {source : Bytes} {s : Span} {i : Nat} {c : UInt8} (found : source[i]? = some c)
    (lower : s.start ≤ i) (upper : i < s.stop) : c ∈ s.cut source := by
  obtain ⟨k, rfl⟩ := Nat.exists_eq_add_of_le lower
  have here : (s.cut source)[k]? = some c := by
    rw [cut, List.getElem?_drop, List.getElem?_take_of_lt upper, found]
  exact List.mem_of_getElem? here

namespace LineAt

variable {source : Bytes} {offset : Nat} {line line' : Span}

theorem ne_newline (held : LineAt source offset line) {i : Nat} (lower : line.start ≤ i)
    (upper : i < line.stop) : source[i]? ≠ some newline :=
  fun found => held.solid (Span.mem_cut found lower upper)

theorem start_le_start (held : LineAt source offset line) (held' : LineAt source offset line') :
    line.start ≤ line'.start := by
  by_contra later
  rcases held.before with first | found
  · omega
  · have upper := held.start_le.trans held'.le_stop
    exact held'.ne_newline (by omega) (by omega) found

theorem stop_le_stop (held : LineAt source offset line) (held' : LineAt source offset line') :
    line.stop ≤ line'.stop := by
  by_contra earlier
  rcases held'.behind with last | found
  · exact earlier (last ▸ held.inside)
  · have lower := held.start_le.trans held'.le_stop
    exact held.ne_newline lower (by omega) found

/-- No offset is in two lines. -/
theorem unique (held : LineAt source offset line) (held' : LineAt source offset line') :
    line = line' := by
  obtain ⟨start, stop⟩ := line
  obtain ⟨start', stop'⟩ := line'
  have starts := Nat.le_antisymm (held.start_le_start held') (held'.start_le_start held)
  have stops := Nat.le_antisymm (held.stop_le_stop held') (held'.stop_le_stop held)
  exact congrArg₂ Span.mk starts stops

/-- What stands at the offset ends in the line unless it goes on in the next one. -/
theorem stop_le_iff (held : LineAt source offset line) {text : Bytes}
    (stands : text <+: source.drop offset) : offset + text.length ≤ line.stop ↔ newline ∉ text := by
  have same {k : Nat} (within : k < text.length) : source[offset + k]? = some text[k] := by
    rw [← List.getElem?_drop]
    exact List.prefix_iff_getElem?.1 stands k within
  constructor
  · intro fits member
    obtain ⟨k, within, found⟩ := List.getElem_of_mem member
    have lower := held.start_le
    exact held.ne_newline (by omega) (by omega) (found ▸ same within)
  · intro solid
    by_contra beyond
    obtain ⟨k, reached⟩ := Nat.exists_eq_add_of_le held.le_stop
    have within : k < text.length := by omega
    have inside := stands.length_le
    rw [List.length_drop] at inside
    rcases held.behind with last | found
    · omega
    · rw [reached, same within, Option.some.injEq] at found
      exact solid (found ▸ List.getElem_mem within)

end LineAt

theorem Span.cut_append (front text back : Bytes) :
    Span.cut ⟨front.length, front.length + text.length⟩ (front ++ text ++ back) = text := by
  rw [cut, List.take_left' List.length_append, List.drop_left' rfl]

/-- Between two newlines, or an end of the source in place of one, is a line. -/
theorem lineAt_append {front before behind back : Bytes} (solidBefore : newline ∉ before)
    (solidBehind : newline ∉ behind) (ended : ∀ c ∈ front.getLast?, c = newline)
    (ends : ∀ c ∈ back.head?, c = newline) :
    LineAt (front ++ (before ++ behind) ++ back) (front.length + before.length)
      ⟨front.length, front.length + (before ++ behind).length⟩ := by
  refine ⟨by simp, by simp, by simp, ?_, ?_, ?_⟩
  · rw [Span.cut_append, List.mem_append]
    exact fun member => member.elim solidBefore solidBehind
  · cases last : front.getLast? with
    | none => exact .inl (by simp [List.getLast?_eq_none_iff.1 last])
    | some c =>
      obtain rfl := ended c last
      refine .inr ?_
      rw [List.getLast?_eq_getElem?] at last
      rw [List.append_assoc, List.getElem?_append_left (List.getElem?_eq_some_iff.1 last).1, last]
  · cases back with
    | nil => exact .inl (by simp)
    | cons c rest =>
      obtain rfl := ends c rfl
      exact .inr (by rw [← List.length_append, List.getElem?_append_right (Nat.le_refl _)]; simp)

theorem head?_dropWhile_newline (text : Bytes) :
    ∀ c ∈ (text.dropWhile (· != newline)).head?, c = newline := by
  intro c found
  have stopped := List.head?_dropWhile_not (· != newline) text
  rw [Option.mem_def.1 found] at stopped
  simpa using stopped

/-- The line that a diagnostic shows is the one that holds the offset. -/
theorem exists_lineAt {source : Bytes} {offset : Nat} (inside : offset ≤ source.length) :
    ∃ line, LineAt source offset line ∧
      line.cut source = lineBefore source offset ++ lineFrom source offset ∧
      line.start + (lineBefore source offset).length = offset := by
  generalize behind : (source.drop offset).dropWhile (· != newline) = back
  generalize ahead : ((source.take offset).reverse.dropWhile (· != newline)).reverse = front
  have first : front ++ lineBefore source offset = source.take offset := by
    rw [lineBefore, ← ahead, ← List.reverse_append, List.takeWhile_append_dropWhile,
      List.reverse_reverse]
  have second : lineFrom source offset ++ back = source.drop offset := by
    rw [lineFrom, ← behind, List.takeWhile_append_dropWhile]
  have whole : front ++ (lineBefore source offset ++ lineFrom source offset) ++ back = source := by
    rw [← List.append_assoc, List.append_assoc, first, second, List.take_append_drop]
  have length : front.length + (lineBefore source offset).length = offset := by
    rw [← List.length_append, first, List.length_take_of_le inside]
  have solidBefore : newline ∉ lineBefore source offset := by
    rw [lineBefore, List.mem_reverse]
    exact not_mem_lineContent _
  have solidBehind : newline ∉ lineFrom source offset := not_mem_lineContent _
  have ended : ∀ c ∈ front.getLast?, c = newline := by
    rw [← ahead, List.getLast?_reverse]
    exact head?_dropWhile_newline _
  have ends : ∀ c ∈ back.head?, c = newline := behind ▸ head?_dropWhile_newline _
  have line := lineAt_append solidBefore solidBehind ended ends
  have text := Span.cut_append front (lineBefore source offset ++ lineFrom source offset) back
  rw [whole, length] at line
  rw [whole] at text
  exact ⟨_, line, text, length⟩

abbrev caret : UInt8 := 94
abbrev tilde : UInt8 := 126

theorem getElem?_blanks_append (count index : Nat) (text : Bytes) :
    (blanks count ++ text)[count + index]? = text[index]? := by
  have length : (blanks count).length = count := List.length_replicate
  rw [List.getElem?_append_right (by omega), length, Nat.add_sub_cancel_left]

namespace Diagnostic

/-- The line of the source, set in from the margin. -/
def above (source : Bytes) (d : Diagnostic) : Bytes :=
  blanks 8 ++ untilNul (lineBefore source d.loc.toNat ++ lineFrom source d.loc.toNat)

/-- The marker, set in as far as what it marks. -/
def below (source : Bytes) (d : Diagnostic) : Bytes :=
  blanks 8 ++ padding (lineBefore source d.loc.toNat) ++ marker d.length

theorem display_of_le {source : Bytes} {offset : Nat} (d : Diagnostic)
    (inside : offset ≤ source.length) (found : d.loc = offset) :
    d.display source =
      d.heading ++ (d.above source ++ [newline]) ++ (d.below source ++ [newline]) := by
  have located : ¬ (d.loc < 0 ∨ source.length < d.loc) := by omega
  simp [display, located, heading, above, below]

theorem length_below (source : Bytes) (d : Diagnostic) : (d.below source).length =
    8 + (lineBefore source d.loc.toNat).length + ((d.length - 1).toNat + 1) := by
  have single : bytes "^" = [caret] := by decide
  simp only [below, blanks, padding, marker, single, List.length_append, List.length_replicate,
    List.length_map, List.length_singleton]
  omega

theorem newline_not_mem_below (source : Bytes) (d : Diagnostic) : newline ∉ d.below source := by
  have setIn : newline ∉ blanks 8 := by decide
  have single : newline ∉ bytes "^" := by decide
  simp only [below, padding, marker, List.mem_append, List.mem_map, List.mem_replicate]
  rintro ((member | ⟨c, -, same⟩) | member | ⟨-, same⟩)
  · exact setIn member
  · split at same <;> contradiction
  · exact single member
  · contradiction

theorem getElem?_below (source : Bytes) (d : Diagnostic) :
    (d.below source)[8 + (lineBefore source d.loc.toNat).length]? = some caret := by
  have width : (padding (lineBefore source d.loc.toNat)).length =
      (lineBefore source d.loc.toNat).length := List.length_map _
  rw [below, List.append_assoc, getElem?_blanks_append, ← width,
    List.getElem?_append_right (Nat.le_refl _), Nat.sub_self]
  rfl

end Diagnostic

namespace LineAt

variable {source : Bytes} {offset : Nat} {line : Span}

theorem cut_eq (held : LineAt source offset line) :
    line.cut source = lineBefore source offset ++ lineFrom source offset ∧
      line.start + (lineBefore source offset).length = offset := by
  obtain ⟨line', held', parts⟩ := exists_lineAt (held.le_stop.trans held.inside)
  exact held.unique held' ▸ parts

theorem take_cut (held : LineAt source offset line) :
    (line.cut source).take (offset - line.start) = lineBefore source offset := by
  obtain ⟨text, length⟩ := held.cut_eq
  rw [text]
  exact List.take_left' (by omega)

theorem length_cut (held : LineAt source offset line) :
    (line.cut source).length = line.stop - line.start := by
  rw [Span.cut, List.length_drop, List.length_take_of_le held.inside]

theorem above_eq (held : LineAt source offset line) (clean : 0 ∉ source) {d : Diagnostic}
    (located : d.loc = offset) : d.above source = blanks 8 ++ line.cut source := by
  have cleanLine : 0 ∉ line.cut source :=
    fun member => clean (List.mem_of_mem_take (List.mem_of_mem_drop member))
  rw [Diagnostic.above, located, Int.toNat_natCast, ← held.cut_eq.1, untilNul_eq_self cleanLine]

theorem getElem?_cut (held : LineAt source offset line) (within : offset < line.stop) :
    (line.cut source)[offset - line.start]? = source[offset]? := by
  rw [Span.cut, List.getElem?_drop, Nat.add_sub_cancel' held.start_le, List.getElem?_take_of_lt within]

theorem below_eq (held : LineAt source offset line) {d : Diagnostic} (located : d.loc = offset) :
    d.below source = blanks 8 ++
      ((line.cut source).take (offset - line.start)).map (fun c => if c = tab then tab else blank) ++
      caret :: List.replicate (max 0 (d.length - 1)).toNat tilde := by
  have single : bytes "^" = [caret] := by decide
  have tildes : (max 0 (d.length - 1)).toNat = (d.length - 1).toNat := by omega
  rw [Diagnostic.below, located, Int.toNat_natCast, held.take_cut, tildes, Diagnostic.marker, single]
  simp [Diagnostic.padding]

end LineAt

/-- A diagnostic with a location in the source is shown in three lines: its message, the only line
that holds the location, and the marker, whose caret is in the column of the byte located there since
what it is set in by is as wide as what stands before that byte, tabs included. Without such a
location the message is all. -/
theorem caret_stands_under_byte {source message : Bytes} (clean : 0 ∉ source) (plain : 0 ∉ message)
    (loc length : Int) :
    let shown := (⟨message, loc, length⟩ : Diagnostic).display source
    let heading := bytes "[error] " ++ message ++ [newline]
    (∀ offset : Nat, loc = offset → offset ≤ source.length →
      (∃! line, LineAt source offset line) ∧
      ∀ line, LineAt source offset line →
        let column := offset - line.start
        let text := line.cut source
        let pad := (text.take column).map fun c => if c = tab then tab else blank
        let above := blanks 8 ++ text
        let below := blanks 8 ++ pad ++ caret :: List.replicate (max 0 (length - 1)).toNat tilde
        shown = heading ++ (above ++ [newline]) ++ (below ++ [newline]) ∧
        newline ∉ above ∧ newline ∉ below ∧
        pad.length = column ∧ below[8 + column]? = some caret ∧
        (offset < line.stop → above[8 + column]? = source[offset]?)) ∧
    (loc = noLoc ∨ source.length < loc → shown = heading) := by
  intro shown heading
  have message_eq : untilNul message = message := untilNul_eq_self plain
  constructor
  · rintro offset rfl inside
    obtain ⟨line, held, -⟩ := exists_lineAt inside
    refine ⟨⟨line, held, fun other held' => held'.unique held⟩, fun line held => ?_⟩
    intro column text pad above below
    let d : Diagnostic := ⟨message, offset, length⟩
    have first : d.above source = above := held.above_eq clean rfl
    have second : d.below source = below := held.below_eq rfl
    have heads : d.heading = heading := by rw [Diagnostic.heading, message_eq]
    have before : (lineBefore source offset).length = column :=
      Nat.eq_sub_of_add_eq' held.cut_eq.2
    have setIn : newline ∉ blanks 8 := by decide
    refine ⟨?_, ?_, ?_, ?_, ?_, fun within => ?_⟩
    · rw [← heads, ← first, ← second]
      exact d.display_of_le inside rfl
    · exact fun member => (List.mem_append.1 member).elim setIn held.solid
    · exact second ▸ d.newline_not_mem_below source
    · rw [List.length_map, held.take_cut, before]
    · rw [← second, ← before]
      exact d.getElem?_below source
    · rw [getElem?_blanks_append]
      exact held.getElem?_cut within
  · intro outside
    have located : loc < 0 ∨ source.length < loc := by
      rcases outside with rfl | beyond
      · exact .inl (by decide)
      · exact .inr beyond
    simp [shown, heading, Diagnostic.display, located, message_eq]

/-- On the newline that ends a line with a tab in it, and in a line of which there is nothing. -/
theorem caret_stands_under_byte_tab :
    let source := bytes "x\n\ty\n\nz"
    let message := bytes "no"
    0 ∉ source ∧ 0 ∉ message ∧ LineAt source 4 ⟨2, 4⟩ ∧ LineAt source 5 ⟨5, 5⟩ ∧
      (⟨message, 4, 3⟩ : Diagnostic).display source =
        bytes "[error] no\n        \ty\n        \t ^~~\n" ∧
      (⟨message, 5, -1⟩ : Diagnostic).display source = bytes "[error] no\n        \n        ^\n" ∧
      (⟨message, 8, 3⟩ : Diagnostic).display source = bytes "[error] no\n" := by
  intro source message
  have clean : 0 ∉ source := by decide
  have plain : 0 ∉ message := by decide
  have held : LineAt source 4 ⟨2, 4⟩ := by decide
  have empty : LineAt source 5 ⟨5, 5⟩ := by decide
  have shown (loc length : Int) := caret_stands_under_byte clean plain loc length
  refine ⟨clean, plain, held, empty, ?_, ?_, ?_⟩
  · exact (((shown 4 3).1 4 rfl (by decide)).2 _ held).1
  · exact (((shown 5 (-1)).1 5 rfl (by decide)).2 _ empty).1
  · exact (shown 8 3).2 (.inr (by decide))

/-- The marker of an error in a source stays under the line above it, unless the error is a string
that is never closed and has a newline in it. -/
theorem marker_stays_under_line_iff {source : Bytes} (clean : 0 ∉ source) {e : ParseError}
    (reported : e ∈ (read source).errors) :
    (∃! line, LineAt source e.loc line) ∧
    ∀ line, LineAt source e.loc line →
      let above := e.diagnostic.above source
      let below := e.diagnostic.below source
      e.diagnostic.display source =
        e.diagnostic.heading ++ (above ++ [newline]) ++ (below ++ [newline]) ∧
      above = blanks 8 ++ line.cut source ∧
      (below.length ≤ above.length ↔ e.loc + e.flaw.length ≤ line.stop) ∧
      (e.loc + e.flaw.length ≤ line.stop ↔
        ∀ text, e.flaw = .unclosedString text → newline ∉ text) := by
  have stands := errors_stand reported
  have inside : e.loc ≤ source.length := (error_loc_lt_length reported).le
  obtain ⟨line, held, -⟩ := exists_lineAt inside
  refine ⟨⟨line, held, fun other held' => held'.unique held⟩, fun line held => ?_⟩
  intro above below
  have text : above = blanks 8 ++ line.cut source := held.above_eq clean rfl
  refine ⟨e.diagnostic.display_of_le inside rfl, text, ?_, ?_⟩
  · have width : below.length =
        8 + (lineBefore source e.loc).length + (((e.flaw.length : Int) - 1).toNat + 1) :=
      e.diagnostic.length_below source
    have length : above.length = 8 + (line.stop - line.start) := by
      rw [text, List.length_append, held.length_cut]
      rfl
    have column := held.cut_eq.2
    have some := stands.length_pos
    have last := held.le_stop
    omega
  · rw [← e.flaw.length_marked, held.stop_le_iff stands.marked, stands.solid_iff]

/-- A string on the second line that is never closed, marked up to the very end of it. -/
theorem marker_stays_under_line_iff_last :
    let source := bytes "(\n \"ab"
    let e : ParseError := ⟨.unclosedString (bytes "ab"), 3⟩
    0 ∉ source ∧ e ∈ (read source).errors ∧ LineAt source 3 ⟨2, 6⟩ ∧ 3 + e.flaw.length ≤ 6 ∧
      e.diagnostic.display source =
        bytes "[error] Unterminated string literal\n         \"ab\n         ^~~\n" := by
  intro source e
  have clean : 0 ∉ source := by decide
  have reported : e ∈ (read source).errors := by
    have errors : (read source).errors = [e, ⟨.unclosedList, 0⟩] := by
      subst source e
      decide +kernel
    rw [errors]
    exact List.mem_cons_self
  have held : LineAt source 3 ⟨2, 6⟩ := by decide
  obtain ⟨shown, -, -, fits⟩ := (marker_stays_under_line_iff clean reported).2 _ held
  have solid : newline ∉ bytes "ab" := by decide
  exact ⟨clean, reported, held, fits.2 (by rintro _ ⟨rfl⟩; exact solid), shown⟩

/-- A string that goes on in the next line is marked as if it all stood in the first one. -/
theorem marker_overruns_line :
    let source := bytes "\"a\nb"
    let e : ParseError := ⟨.unclosedString (bytes "a\nb"), 0⟩
    0 ∉ source ∧ e ∈ (read source).errors ∧ LineAt source e.loc ⟨0, 2⟩ ∧
      ¬ e.loc + e.flaw.length ≤ 2 ∧
      e.diagnostic.display source =
        bytes "[error] Unterminated string literal\n        \"a\n        ^~~~\n" := by
  intro source e
  have reported : e ∈ (read source).errors := by
    have errors : (read source).errors = [e] := by
      subst source e
      decide +kernel
    rw [errors]
    exact List.mem_cons_self
  exact ⟨by decide, reported, by decide, by decide, by decide⟩

end Sketch
