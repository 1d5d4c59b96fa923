import Mathlib.Algebra.Group.Int.Defs
import Mathlib.Algebra.Group.Nat.Defs
import Sketch.Proofs.Source.Cut
import Sketch.Source.Cursor

/-! Cursors stay inside their source, whatever they are asked for. That is so even in machine words,
where a position has a sign, the size of the source has none, and a negative number wraps around before
the two are compared. -/
namespace Sketch

namespace Cursor

/-- What can be asked of a cursor. -/
inductive Request where
  | peek (offset : Int32)
  | next
  | hasNext
  | skipBlanks
  | slice (first last : Int32)

inductive Answer where
  | byte (byte : UInt8)
  | truth (holds : Bool)
  | text (text : Bytes)
  | done

def respond (c : Cursor) : Request → Answer × Cursor
  | .peek offset => (.byte (c.peek offset.toInt), c)
  | .next => (.byte c.next.1, c.next.2)
  | .hasNext => (.truth c.hasNext, c)
  | .skipBlanks => (.done, c.skipBlanks)
  | .slice first last => (.text (c.slice first.toInt last.toInt), c)

/-- A request with the cursor before and behind it. -/
structure Step where
  before : Cursor
  request : Request
  answer : Answer
  behind : Cursor

def step (c : Cursor) (request : Request) : Step :=
  ⟨c, request, (c.respond request).1, (c.respond request).2⟩

def steps (c : Cursor) : List Request → List Step
  | [] => []
  | request :: rest => c.step request :: (c.step request).behind.steps rest

/-- The cursor behind all requests. -/
def follow (c : Cursor) (requests : List Request) : Cursor :=
  requests.foldl (fun c request => (c.respond request).2) c

/-- The byte that was answered if the cursor went on to the next one, and the bytes that it skipped. -/
def Step.passed (s : Step) : Bytes :=
  match s.request, s.answer with
  | .next, .byte byte => if s.before.pos < s.behind.pos then [byte] else []
  | .skipBlanks, _ => Span.cut ⟨s.before.pos, s.behind.pos⟩ s.before.source
  | _, _ => []

/-- What is answered to a request at the offset `pos` of a source, and the offset that this leads to. -/
inductive Answers (source : Bytes) (pos : Nat) : Request → Answer → Nat → Prop where
  | peek {offset : Int32} {index : Nat} {byte : UInt8} : pos + offset.toInt = index →
      source[index]? = some byte → Answers source pos (.peek offset) (.byte byte) pos
  | peekOutside {offset : Int32} :
      pos + offset.toInt < 0 ∨ source.length ≤ pos + offset.toInt →
      Answers source pos (.peek offset) (.byte 0) pos
  | next {byte : UInt8} : source[pos]? = some byte →
      Answers source pos .next (.byte byte) (pos + 1)
  | nextAtEnd : pos = source.length → Answers source pos .next (.byte 0) pos
  | hasNext {holds : Bool} : (holds = false ↔ pos = source.length) →
      Answers source pos .hasNext (.truth holds) pos
  | skipBlanks {stop : Nat} :
      Span.Blank source ⟨pos, stop⟩ →
      (∀ byte, source[stop]? = some byte → byte ∉ separators) →
      Answers source pos .skipBlanks .done stop
  | slice {first last : Int32} {start stop : Nat} {text : Bytes} :
      (start : Int) = max first.toInt 0 →
      (stop : Int) = (if last.toInt < 0 ∨ source.length < last.toInt then (source.length : Int)
        else last.toInt) →
      (∀ i, text[i]? = if start + i < stop then source[start + i]? else none) →
      Answers source pos (.slice first last) (.text text) pos

/-- A step inside a source, which only goes forward. -/
structure Step.Sound (source : Bytes) (s : Step) : Prop where
  forward : s.before.pos ≤ s.behind.pos
  inside : s.behind.pos ≤ source.length
  answers : Answers source s.before.pos s.request s.answer s.behind.pos

/-- A cursor somewhere in a source. -/
structure On (source : Bytes) (c : Cursor) : Prop where
  same : c.source = source
  within : c.place.Within source
  inside : c.pos ≤ source.length

end Cursor

/-- A 32-bit number as a 64-bit word: a negative one wraps around. -/
def extend (n : Int32) : UInt64 := n.toInt64.toUInt64

theorem toNat_extend (n : Int32) : ((extend n).toNat : Int) = n.toInt % 2 ^ 64 := by
  have signed : n.toInt64.toBitVec.toInt = n.toInt := Int32.toInt_toInt64 n
  have upper := n.toInt64.toBitVec.isLt
  rw [extend, ← signed]
  show (n.toInt64.toBitVec.toNat : Int) = _
  rw [BitVec.toInt_eq_toNat_cond]
  split <;> omega

/-- A cursor in machine words. Its position is a 32-bit number, and offsets are compared with the size
of the source as 64-bit words. `none` stands for an access outside the source. -/
structure WordCursor where
  source : Bytes
  pos : Int32

namespace WordCursor

def start (source : Bytes) : WordCursor := ⟨source, 0⟩

def size (c : WordCursor) : UInt64 := .ofNat c.source.length

def byte? (c : WordCursor) (index : UInt64) : Option UInt8 := c.source[index.toNat]?

def hasNext (c : WordCursor) : Bool := extend c.pos < c.size

def forward (c : WordCursor) : WordCursor := { c with pos := c.pos + 1 }

def peek? (c : WordCursor) (offset : Int32) : Option UInt8 :=
  let index := extend c.pos + extend offset
  if c.size ≤ index then some 0 else c.byte? index

def next? (c : WordCursor) : Option (UInt8 × WordCursor) :=
  if c.hasNext then (c.byte? (extend c.pos)).map fun byte => (byte, c.forward) else some (0, c)

/-- A position that is less than any size does not wrap when it goes forward. -/
theorem extend_forward {c : WordCursor} (next : c.hasNext) :
    (extend c.pos).toNat < (extend c.forward.pos).toNat := by
  have less : (extend c.pos).toNat < c.size.toNat := by
    simpa [hasNext, UInt64.lt_iff_toNat_lt] using next
  have upper := c.size.toNat_lt
  have here := toNat_extend c.pos
  have there := toNat_extend c.forward.pos
  have sum : c.forward.pos.toInt = (c.pos.toInt + 1).bmod (2 ^ 32) := Int32.toInt_add c.pos 1
  have most := c.pos.toInt_lt
  have least := c.pos.le_toInt
  rw [Int.bmod_def] at sum
  split at sum <;> omega

def skipBlanks? (c : WordCursor) : Option WordCursor :=
  if _ : c.hasNext then
    match c.byte? (extend c.pos) with
    | none => none
    | some byte => if isBlank byte then c.forward.skipBlanks? else some c
  else some c
termination_by 2 ^ 64 - (extend c.pos).toNat
decreasing_by
  have further := extend_forward (c := c) (by assumption)
  have upper := (extend c.forward.pos).toNat_lt
  omega

/-- At most `count` bytes from `start` on. -/
def part? (c : WordCursor) (start count : UInt64) : Option Bytes :=
  if c.size < start then none else some ((c.source.drop start.toNat).take count.toNat)

def slice? (c : WordCursor) (first last : Int32) : Option Bytes :=
  let first := if first < 0 then 0 else first
  let last := if c.size < extend last then .ofNat c.source.length else last
  if last ≤ first then some [] else c.part? (extend first) (extend (last - first))

def respond? (c : WordCursor) : Cursor.Request → Option (Cursor.Answer × WordCursor)
  | .peek offset => (c.peek? offset).map fun byte => (.byte byte, c)
  | .next => c.next?.map fun (byte, c) => (.byte byte, c)
  | .hasNext => some (.truth c.hasNext, c)
  | .skipBlanks => c.skipBlanks?.map fun c => (.done, c)
  | .slice first last => (c.slice? first last).map fun text => (.text text, c)

def answers? (c : WordCursor) : List Cursor.Request → Option (List Cursor.Answer × WordCursor)
  | [] => some ([], c)
  | request :: rest => do
    let (answer, c) ← c.respond? request
    let (answers, c) ← c.answers? rest
    some (answer :: answers, c)

end WordCursor

namespace Cursor

/-- The same cursor in machine words. -/
def words (c : Cursor) : WordCursor := ⟨c.source, .ofNat c.pos⟩

theorem words_forward (c : Cursor) :
    words { c with place := c.place.advance 1 } = c.words.forward := by
  have sum : Int32.ofNat (c.pos + 1) = Int32.ofNat c.pos + 1 := Int32.ofNat_add c.pos 1
  exact congrArg (WordCursor.mk c.source) sum

section

variable {source : Bytes} {c : Cursor} (on : c.On source)
include on

theorem On.rest_eq : c.place.rest = source.drop c.pos := on.within

theorem On.byte_or_end : (∃ byte, source[c.pos]? = some byte) ∨ c.pos = source.length := by
  rcases Nat.lt_or_ge c.pos source.length with inside | outside
  · exact .inl ⟨_, List.getElem?_eq_getElem inside⟩
  · exact .inr (Nat.le_antisymm on.inside outside)

theorem On.hasNext_iff : c.hasNext ↔ c.pos < source.length := by
  rw [hasNext, Place.hasNext, on.rest_eq]
  simp

theorem On.rest_of_byte {byte : UInt8} (found : source[c.pos]? = some byte) :
    c.place.rest = byte :: source.drop (c.pos + 1) := by
  obtain ⟨inside, same⟩ := List.getElem?_eq_some_iff.1 found
  rw [on.rest_eq, List.drop_eq_getElem_cons inside, same]

/-- The two ways in which a cursor goes on. -/
theorem On.next_cases :
    (∃ byte, source[c.pos]? = some byte ∧
      c.next = (byte, { c with place := c.place.advance 1 })) ∨
    (c.pos = source.length ∧ c.next = (0, c)) := by
  rcases on.byte_or_end with ⟨byte, found⟩ | ended
  · refine .inl ⟨byte, found, ?_⟩
    simp [next, Place.next?, Place.advance, on.rest_of_byte found]
  · have last : c.place.rest = [] := by rw [on.rest_eq, ended, List.drop_length]
    refine .inr ⟨ended, ?_⟩
    simp [next, Place.next?, last]

theorem On.advance {count : Nat} (inside : c.pos + count ≤ source.length) :
    On source { c with place := c.place.advance count } :=
  ⟨on.same, on.within.advance count, inside⟩

theorem On.skipBlanks_of_blank {byte : UInt8} (found : source[c.pos]? = some byte)
    (separating : isBlank byte) :
    Cursor.skipBlanks { c with place := c.place.advance 1 } = c.skipBlanks := by
  have ahead := on.rest_of_byte found
  have here : c.place = ⟨c.pos, byte :: source.drop (c.pos + 1)⟩ := by rw [← ahead]; rfl
  simp only [Cursor.skipBlanks, here, Place.skipBlanks_cons separating]
  rfl

theorem On.skipBlanks_of_solid (solid : ∀ byte, source[c.pos]? = some byte → ¬isBlank byte) :
    c.skipBlanks = c := by
  have still : c.place.rest.takeWhile isBlank = [] := by
    rcases on.byte_or_end with ⟨byte, found⟩ | ended
    · rw [on.rest_of_byte found]
      exact List.takeWhile_cons_of_neg (solid byte found)
    · rw [on.rest_eq, ended, List.drop_length]
      rfl
  rw [Cursor.skipBlanks, Place.skipBlanks, still]
  rfl

theorem On.skipBlanks : c.skipBlanks.On source := by
  refine on.advance ?_
  have front := (List.takeWhile_prefix isBlank (l := c.place.rest)).length_le
  have room := on.inside
  rw [on.rest_eq, List.length_drop] at front
  rw [on.rest_eq]
  omega

/-- Whatever is asked of a cursor, it stays in its source. -/
theorem On.respond (request : Request) : (c.respond request).2.On source := by
  cases request with
  | peek | hasNext | slice => exact on
  | next =>
    rcases on.next_cases with ⟨byte, found, next⟩ | ⟨-, next⟩
    · rw [Cursor.respond, next]
      exact on.advance (List.getElem?_eq_some_iff.1 found).1
    · rw [Cursor.respond, next]
      exact on
  | skipBlanks => exact on.skipBlanks

theorem On.pos_le (request : Request) : c.pos ≤ (c.respond request).2.pos := by
  cases request with
  | peek | hasNext | slice => exact Nat.le_refl _
  | next =>
    rcases on.next_cases with ⟨byte, -, next⟩ | ⟨-, next⟩
    · rw [Cursor.respond, next]
      exact Nat.le_succ _
    · rw [Cursor.respond, next]
  | skipBlanks => exact Nat.le_add_right _ _

theorem On.peek_eq {offset : Int} {index : Nat} (sum : c.pos + offset = index) :
    c.peek offset = source[index]?.getD 0 := by
  rw [peek, sum, on.same]
  exact if_neg (Int.not_lt.2 (Int.natCast_nonneg index))

theorem On.answers_peek (offset : Int32) :
    Answers source c.pos (.peek offset) (.byte (c.peek offset.toInt)) c.pos := by
  by_cases before : c.pos + offset.toInt < 0
  · rw [peek, if_pos before]
    exact .peekOutside (.inl before)
  · obtain ⟨index, sum⟩ := Int.eq_ofNat_of_zero_le (Int.not_lt.1 before)
    rw [on.peek_eq sum]
    cases found : source[index]? with
    | some byte => exact .peek sum found
    | none =>
      refine .peekOutside (.inr ?_)
      rw [sum]
      exact Int.ofNat_le.2 (List.getElem?_eq_none_iff.1 found)

theorem On.answers_skipBlanks : Answers source c.pos .skipBlanks .done c.skipBlanks.pos := by
  refine .skipBlanks on.within.blank_skipped fun byte found => ?_
  have ahead : c.place.skipBlanks.rest = _ := on.skipBlanks.rest_of_byte found
  have next : c.place.skipBlanks.next? = some (byte, c.place.skipBlanks.advance 1) := by
    simp [Place.next?, Place.advance, ahead]
  exact mt isBlank_iff.2 (Place.not_isBlank_of_next? next)

theorem On.answers_slice (first last : Int32) :
    Answers source c.pos (.slice first last) (.text (c.slice first.toInt last.toInt)) c.pos := by
  refine @Answers.slice source c.pos first last first.toInt.toNat
    (if last.toInt < 0 ∨ source.length < last.toInt then source.length else last.toInt.toNat)
    _ (by omega) (by split <;> omega) fun i => ?_
  rw [slice, on.same, List.getElem?_drop, List.getElem?_take]

theorem On.answers (request : Request) :
    Answers source c.pos request (c.respond request).1 (c.respond request).2.pos := by
  cases request with
  | peek offset => exact on.answers_peek offset
  | next =>
    rcases on.next_cases with ⟨byte, found, next⟩ | ⟨ended, next⟩
    · rw [Cursor.respond, next]
      exact .next found
    · rw [Cursor.respond, next]
      exact .nextAtEnd ended
  | hasNext =>
    refine .hasNext ?_
    have inside := on.inside
    rw [← Bool.not_eq_true, on.hasNext_iff]
    omega
  | skipBlanks => exact on.answers_skipBlanks
  | slice first last => exact on.answers_slice first last

end

section

variable {source : Bytes} {c : Cursor} (on : c.On source) (small : source.length < 2 ^ 31)
include on small

theorem On.toNat_extend_pos : (extend c.words.pos).toNat = c.pos := by
  have inside := on.inside
  have wrapped := toNat_extend c.words.pos
  have pos : c.words.pos.toInt = c.pos := Int32.toInt_ofNat_of_lt (by omega)
  omega

theorem On.toNat_size : c.words.size.toNat = source.length := by
  rw [← on.same] at small ⊢
  exact UInt64.toNat_ofNat_of_lt' (small.trans (by decide))

theorem On.hasNext_words : c.words.hasNext = c.hasNext := by
  rw [Bool.eq_iff_iff, on.hasNext_iff, WordCursor.hasNext, decide_eq_true_iff,
    UInt64.lt_iff_toNat_lt, on.toNat_extend_pos small, on.toNat_size small]

theorem On.byte?_words :
    c.words.byte? (extend c.words.pos) = source[c.pos]? := by
  rw [WordCursor.byte?, on.toNat_extend_pos small]
  exact congrArg (·[c.pos]?) on.same

/-- A sum that is negative becomes a word that is larger than any size. -/
theorem On.toNat_index (offset : Int32) :
    ((extend c.words.pos + extend offset).toNat : Int) = (c.pos + offset.toInt) % 2 ^ 64 := by
  have wrapped := toNat_extend offset
  rw [UInt64.toNat_add, on.toNat_extend_pos small]
  omega

theorem On.peek?_words (offset : Int32) :
    c.words.peek? offset = some (c.peek offset.toInt) := by
  have inside := on.inside
  have wrapped := on.toNat_index small offset
  have least := offset.le_toInt
  have most := offset.toInt_lt
  simp only [WordCursor.peek?, UInt64.le_iff_toNat_le, on.toNat_size small, WordCursor.byte?]
  by_cases before : c.pos + offset.toInt < 0
  · rw [peek, if_pos before, if_pos (by omega)]
  · obtain ⟨index, sum⟩ := Int.eq_ofNat_of_zero_le (Int.not_lt.1 before)
    have word : (extend c.words.pos + extend offset).toNat = index := by omega
    rw [word, on.peek_eq sum, words, on.same]
    by_cases behind : source.length ≤ index
    · rw [if_pos behind, List.getElem?_eq_none behind]
      rfl
    · rw [if_neg behind, List.getElem?_eq_getElem (Nat.lt_of_not_le behind)]
      rfl

theorem On.next?_words :
    c.words.next? = some (c.next.1, c.next.2.words) := by
  rw [WordCursor.next?, on.hasNext_words small, on.byte?_words small]
  rcases on.next_cases with ⟨byte, found, next⟩ | ⟨ended, next⟩
  · have inside := (List.getElem?_eq_some_iff.1 found).1
    rw [if_pos (on.hasNext_iff.2 inside), next, found, Option.map_some, words_forward]
  · rw [if_neg (on.hasNext_iff.not.2 ended.not_lt), next]

/-- The part of the source between two positions that are no longer negative or too large. -/
theorem On.part?_words {first last : Int32} {start stop : Nat}
    (starts : first.toInt = start) (stops : last.toInt = stop) (inside : stop ≤ source.length) :
    (if last ≤ first then some [] else c.words.part? (extend first) (extend (last - first))) =
      some ((source.take stop).drop start) := by
  by_cases empty : stop ≤ start
  · have passed : last ≤ first := by
      rw [Int32.le_iff_toInt_le]
      omega
    rw [if_pos passed, List.drop_eq_nil_of_le ((List.length_take_le _ _).trans empty)]
  · have ahead : ¬last ≤ first := by
      rw [Int32.le_iff_toInt_le]
      omega
    have count : (last - first).toInt = stop - start := by
      rw [← starts, ← stops]
      refine Int32.toInt_sub_of_le last first ?_ ?_ <;>
        simp only [Int32.le_iff_toInt_le, Int32.toInt_zero] <;> omega
    have wrapped := toNat_extend first
    have wrapped' := toNat_extend (last - first)
    have start' : (extend first).toNat = start := by omega
    have count' : (extend (last - first)).toNat = stop - start := by omega
    have room : ¬c.words.size < extend first := by
      rw [UInt64.lt_iff_toNat_lt, on.toNat_size small]
      omega
    rw [if_neg ahead, WordCursor.part?, if_neg room, start', count', words, on.same, List.drop_take]

theorem On.slice?_words (first last : Int32) :
    c.words.slice? first last = some (c.slice first.toInt last.toInt) := by
  obtain rfl := on.same
  have least := first.le_toInt
  have most := last.toInt_lt
  have least' := last.le_toInt
  have wrapped := toNat_extend last
  have starts : (if first < 0 then 0 else first).toInt = (first.toInt.toNat : Int) := by
    simp only [Int32.lt_iff_toInt_lt, Int32.toInt_zero]
    split
    · rw [Int32.toInt_zero]
      omega
    · omega
  have outside : c.words.size < extend last ↔ last.toInt < 0 ∨ c.source.length < last.toInt := by
    rw [UInt64.lt_iff_toNat_lt, on.toNat_size small]
    omega
  have stops : (if c.words.size < extend last then Int32.ofNat c.source.length else last).toInt =
      ((if last.toInt < 0 ∨ c.source.length < last.toInt then c.source.length
        else last.toInt.toNat : Nat) : Int) := by
    simp only [outside]
    split
    · exact Int32.toInt_ofNat_of_lt small
    · omega
  exact on.part?_words small starts stops (by split <;> omega)

end

theorem On.skipBlanks?_words {source : Bytes} {c : Cursor} (on : c.On source)
    (small : source.length < 2 ^ 31) : c.words.skipBlanks? = some c.skipBlanks.words := by
  induction left : source.length - c.pos generalizing c with
  | zero =>
    have ended : c.pos = source.length := Nat.le_antisymm on.inside (Nat.sub_eq_zero_iff_le.1 left)
    have last : ¬c.words.hasNext := by
      rw [on.hasNext_words small, on.hasNext_iff]
      omega
    rw [WordCursor.skipBlanks?, dif_neg last, on.skipBlanks_of_solid]
    simp [ended]
  | succ count ih =>
    have inside : c.pos < source.length := by omega
    have found := List.getElem?_eq_getElem inside
    have next : c.words.hasNext := (on.hasNext_words small).trans (on.hasNext_iff.2 inside)
    rw [WordCursor.skipBlanks?, dif_pos next, on.byte?_words small, found]
    by_cases separating : isBlank source[c.pos]
    · have fewer : source.length - (c.pos + 1) = count := by omega
      have later := ih (on.advance inside) fewer
      simpa [separating, ← words_forward, on.skipBlanks_of_blank found separating] using later
    · have still : c.skipBlanks = c := on.skipBlanks_of_solid (by simpa [found] using separating)
      simp [separating, still]

theorem On.respond?_words {source : Bytes} {c : Cursor} (on : c.On source)
    (small : source.length < 2 ^ 31) (request : Request) :
    c.words.respond? request = some ((c.respond request).1, (c.respond request).2.words) := by
  cases request with
  | peek offset => rw [WordCursor.respond?, on.peek?_words small, Option.map_some, Cursor.respond]
  | next => rw [WordCursor.respond?, on.next?_words small, Option.map_some, Cursor.respond]
  | hasNext => rw [WordCursor.respond?, on.hasNext_words small, Cursor.respond]
  | skipBlanks => rw [WordCursor.respond?, on.skipBlanks?_words small, Option.map_some, Cursor.respond]
  | slice first last =>
    rw [WordCursor.respond?, on.slice?_words small, Option.map_some, Cursor.respond]

theorem on_start (source : Bytes) : (start source).On source :=
  ⟨rfl, .start source, Nat.zero_le _⟩

theorem On.step_sound {source : Bytes} {c : Cursor} (on : c.On source) (request : Request) :
    (c.step request).Sound source :=
  ⟨on.pos_le request, (on.respond request).inside, on.answers request⟩

/-- What a step passes is what stands between its two positions. -/
theorem On.take_append_passed {source : Bytes} {c : Cursor} (on : c.On source) (request : Request) :
    source.take c.pos ++ (c.step request).passed = source.take (c.step request).behind.pos := by
  cases request with
  | peek | hasNext | slice => exact List.append_nil _
  | next =>
    rcases on.next_cases with ⟨byte, found, next⟩ | ⟨-, next⟩
    · have passed : (c.step .next).passed = [byte] := by
        simp [step, Cursor.respond, Step.passed, next, pos]
      have behind : (c.step .next).behind.pos = c.pos + 1 := by
        simp [step, Cursor.respond, next, pos]
      rw [passed, behind, List.take_add_one, found]
      rfl
    · simp [step, Cursor.respond, Step.passed, next]
  | skipBlanks =>
    have further : c.pos ≤ c.skipBlanks.pos := on.pos_le .skipBlanks
    have front : source.take c.pos = (source.take c.skipBlanks.pos).take c.pos := by
      rw [List.take_take, Nat.min_eq_left further]
    show source.take c.pos ++ Span.cut ⟨c.pos, c.skipBlanks.pos⟩ c.source = _
    rw [on.same, Span.cut, front]
    exact List.take_append_drop _ _

theorem On.follow {source : Bytes} {c : Cursor} (on : c.On source) (requests : List Request) :
    (c.follow requests).On source := by
  induction requests generalizing c with
  | nil => exact on
  | cons request rest ih => exact ih (on.respond request)

theorem On.steps_sound {source : Bytes} {c : Cursor} (on : c.On source) (requests : List Request) :
    ∀ s ∈ c.steps requests, s.Sound source := by
  induction requests generalizing c with
  | nil => nofun
  | cons request rest ih =>
    exact List.forall_mem_cons.2 ⟨on.step_sound request, ih (on.respond request)⟩

theorem On.take_append_flatMap_passed {source : Bytes} {c : Cursor} (on : c.On source)
    (requests : List Request) :
    source.take c.pos ++ (c.steps requests).flatMap Step.passed =
      source.take (c.follow requests).pos := by
  induction requests generalizing c with
  | nil => exact List.append_nil _
  | cons request rest ih =>
    rw [steps, List.flatMap_cons, ← List.append_assoc, on.take_append_passed]
    exact ih (on.respond request)

theorem On.answers?_words {source : Bytes} {c : Cursor} (on : c.On source)
    (small : source.length < 2 ^ 31) (requests : List Request) :
    c.words.answers? requests =
      some ((c.steps requests).map Step.answer, (c.follow requests).words) := by
  induction requests generalizing c with
  | nil => rfl
  | cons request rest ih =>
    rw [WordCursor.answers?, on.respond?_words small]
    simp only [Option.bind_eq_bind, Option.bind_some, ih (on.respond request)]
    rfl

end Cursor

/-- Whatever is asked of a cursor, every step goes forward inside the source and is answered from what
stands there, and what has been passed is the source up to the position. In machine words the answers
and the position are the same, so nothing outside the source is ever accessed. -/
theorem cursor_stays_inside {source : Bytes} (small : source.length < 2 ^ 31)
    (requests : List Cursor.Request) :
    let steps := (Cursor.start source).steps requests
    let last := (Cursor.start source).follow requests
    (WordCursor.start source).answers? requests =
        some (steps.map Cursor.Step.answer, ⟨source, .ofNat last.pos⟩) ∧
      (∀ s ∈ steps, s.Sound source) ∧
      last.pos ≤ source.length ∧
      steps.flatMap Cursor.Step.passed = source.take last.pos := by
  intro steps last
  have on := Cursor.on_start source
  have behind := on.follow requests
  refine ⟨?_, on.steps_sound requests, behind.inside, on.take_append_flatMap_passed requests⟩
  have final : last.words = ⟨source, .ofNat last.pos⟩ := by rw [Cursor.words, behind.same]
  rw [← final]
  exact on.answers?_words small requests

/-- Offsets before and behind the source, and a request to go on at its end. -/
theorem cursor_stays_inside_wrapping :
    let source := bytes " ab"
    let requests : List Cursor.Request := [.peek (-1), .skipBlanks, .next, .slice (-3) (-1),
      .slice 2 100, .slice 3 1, .peek Int32.minValue, .peek Int32.maxValue, .next, .next, .hasNext]
    let steps := (Cursor.start source).steps requests
    source.length < 2 ^ 31 ∧
      (WordCursor.start source).answers? requests = some ([.byte 0, .done, .byte 97, .text source,
        .text (bytes "b"), .text [], .byte 0, .byte 0, .byte 98, .byte 0, .truth false],
        ⟨source, 3⟩) ∧
      (∀ s ∈ steps, s.Sound source) ∧
      steps.flatMap Cursor.Step.passed = source := by
  intro source requests steps
  have small : source.length < 2 ^ 31 := by decide
  obtain ⟨words, sound, -, passed⟩ := cursor_stays_inside small requests
  exact ⟨small, words, sound, passed⟩

end Sketch
