import Sketch.Proofs.Source.Cut

/-! What every reader can be relied on for. It passes at least the byte it starts at and stays inside
the source, it adds errors and takes none away, and it has a result exactly if it added none. A source
is therefore read in no more rounds than it has bytes, and a closing parenthesis is stray only where a
round starts, outside every list. -/
namespace Sketch

/-- What may come of reading at the byte `first`, which stands at `start`. -/
structure Yield.Sound (source : Bytes) (start : Nat) (first : UInt8) (y : Yield) (q : Place) :
    Prop where
  further : start < q.pos
  inside : q.pos ≤ source.length
  ahead : q.Within source
  missing : y.result = none ↔ y.errors ≠ []
  stray : ∀ e ∈ y.errors, e.flaw = .strayClose → first = rparen ∧ e.loc = start

/-- The readers that go on behind the byte `first`, which stands at `loc` before `ahead`. -/
inductive Reader (loc : Nat) (first : UInt8) (ahead : Bytes) :
    (Scan → Option Expr × Scan) → Prop where
  | expr (limit level : Nat) :
      Reader loc first ahead fun s => (readExpr limit level loc first s).val
  | list (limit level : Nat) : first = lparen →
      Reader loc first ahead fun s => (readItems limit level loc (some []) s).val
  | string : first = quote → Reader loc first ahead (readString loc)
  | number : Numeral.starts first ahead → Reader loc first ahead (readNumber loc first)
  | symbol : continuesSymbol first → Reader loc first ahead (readSymbol loc first)

/-- A round of reading a source: what came of the expression that starts at the byte `first`. -/
structure Round where
  start : Nat
  first : UInt8
  yield : Yield
  behind : Place

/-- The condition on which a byte is passed unread to guarantee progress. -/
def Round.Stalls (r : Round) : Prop := r.yield.errors ≠ [] ∧ r.behind.pos = r.start

/-- The rounds in which the rest of a source is read. -/
inductive Scan.Rounds (limit : Nat) : Scan → List Round → Scan → Prop where
  | ended {s : Scan} : s.place.skipBlanks.next? = none →
      Rounds limit s [] (s.moveTo s.place.skipBlanks)
  | round {s last : Scan} {first : UInt8} {place behind : Place} {yield : Yield}
      {rounds : List Round} : s.place.skipBlanks.next? = some (first, place) →
      (readExpr limit 0 s.place.skipBlanks.pos first (s.moveTo place)).val =
        yield.scanned behind (s.moveTo place) →
      Rounds limit (yield.scanned behind (s.moveTo place)).2 rounds last →
      Rounds limit s (⟨s.place.skipBlanks.pos, first, yield, behind⟩ :: rounds) last

/-- A list reads no expression at a closing parenthesis. -/
theorem Reads.ne_strayClose {limit level : Nat} {aim : Aim} {p q : Place} {y : Yield}
    (reads : Reads limit aim level p y q)
    (unclosed : aim = .expr → ∀ loc r, p.token? ≠ some (⟨loc, .closing⟩, r)) :
    ∀ e ∈ y.errors, e.flaw ≠ .strayClose := by
  induction reads with
  | string | number | symbol | closed => nofun
  | openString | badNumber | tooDeep | ended => simp
  | strayClose found => exact absurd found (unclosed rfl _ _)
  | list _ _ _ ih => exact ih nofun
  | item found inner _ _ first later =>
    exact List.forall_mem_append.2 ⟨first fun _ => Place.token?_ne_closing found inner, later nofun⟩

theorem Reads.stray {limit level : Nat} {p q behind : Place} {y : Yield} {first : UInt8}
    (reads : Reads limit .expr level p y q) (next : p.skipBlanks.next? = some (first, behind)) :
    ∀ e ∈ y.errors, e.flaw = .strayClose → first = rparen ∧ e.loc = p.skipBlanks.pos := by
  intro e reported stray
  have found := Place.token?_of_next? next
  by_cases closes : first = rparen
  · subst closes
    have closing : lexemeAt rparen behind.rest = .closing := rfl
    rw [closing] at found
    refine ⟨rfl, ?_⟩
    cases reads with
    | strayClose found' =>
      rw [found] at found'
      cases found'
      rw [List.mem_singleton.1 reported]
    | _ => simp_all
  · refine absurd stray (reads.ne_strayClose (fun _ loc r closing => ?_) e reported)
    exact Place.token?_ne_closing found (lexemeAt_ne_closing closes) loc r closing

theorem Reads.pos_le_length {limit level : Nat} {aim : Aim} {p q : Place} {y : Yield}
    {source : Bytes} (reads : Reads limit aim level p y q) (sized : p.stop = source.length) :
    q.pos ≤ source.length := by
  rw [← sized, ← reads.stop]
  exact Nat.le_add_right _ _

theorem Reads.sound {limit level : Nat} {p q behind : Place} {y : Yield} {first : UInt8}
    {source : Bytes} (reads : Reads limit .expr level p y q) (within : p.Within source)
    (next : p.skipBlanks.next? = some (first, behind)) :
    y.Sound source p.skipBlanks.pos first q where
  further := reads.pos_lt
  inside := reads.pos_le_length (within.stop_eq (Place.token?_of_next? next))
  ahead := reads.within within
  missing := reads.missing_iff trivial
  stray := reads.stray next

/-- Something sound comes of a reader, whatever was noted before. -/
def SoundlyReads (source : Bytes) (pos : Nat) (first : UInt8)
    (reader : Scan → Option Expr × Scan) : Prop :=
  ∃ (y : Yield) (q : Place), y.Sound source pos first q ∧ ∀ s : Scan,
    s.place = (Place.start source).advance (pos + 1) → reader s = y.scanned q s

/-- A reader that only looks for the end of its token. -/
theorem SoundlyReads.of_advance {source : Bytes} {pos count : Nat} {first : UInt8}
    {reader : Scan → Option Expr × Scan} (y : Yield) (inside : pos < source.length)
    (room : count ≤ (source.drop (pos + 1)).length) (missing : y.result = none ↔ y.errors ≠ [])
    (clean : ∀ e ∈ y.errors, e.flaw ≠ .strayClose)
    (reads : ∀ s : Scan, s.place.rest = source.drop (pos + 1) →
      reader s = y.scanned (s.place.advance count) s) :
    SoundlyReads source pos first reader := by
  have within : ((Place.start source).advance (pos + 1)).Within source :=
    (Place.Within.start source).advance _
  refine ⟨y, _, ⟨?_, ?_, within.advance count, missing,
    fun e reported stray => absurd stray (clean e reported)⟩, fun s here => ?_⟩
  · simp only [Place.pos_advance]
    omega
  · simp only [Place.pos_advance, Place.start, List.length_drop] at room ⊢
    omega
  · rw [← here]
    exact reads s (by rw [here]; rfl)

theorem soundlyReads_string {source : Bytes} {pos : Nat} (inside : pos < source.length) :
    SoundlyReads source pos quote (readString pos) := by
  by_cases closed : quote ∈ source.drop (pos + 1)
  · have room : ((source.drop (pos + 1)).takeWhile (· != quote)).length + 1 ≤
        (source.drop (pos + 1)).length := by
      obtain ⟨more, split⟩ := takeWhile_append_of_quote_mem closed
      have whole := congrArg List.length split
      rw [List.length_append, List.length_cons] at whole
      omega
    refine .of_advance ⟨some (.string pos ((source.drop (pos + 1)).takeWhile (· != quote))), [], []⟩
      inside room (by simp) nofun fun s ahead => ?_
    rw [readString_of_mem pos (ahead ▸ closed), ahead]
    rfl
  · refine .of_advance ⟨none, [⟨.unclosedString (source.drop (pos + 1)), pos⟩], []⟩
      inside (Nat.le_refl _) (by simp) (by simp) fun s ahead => ?_
    rw [readString_of_not_mem pos (ahead ▸ closed), ahead]
    rfl

theorem soundlyReads_number {source : Bytes} {pos : Nat} (first : UInt8)
    (inside : pos < source.length) : SoundlyReads source pos first (readNumber pos first) := by
  have room := (List.takeWhile_prefix Numeral.continues (l := source.drop (pos + 1))).length_le
  generalize token : first :: (source.drop (pos + 1)).takeWhile Numeral.continues = whole
  cases spelled : Numeral.ofToken? whole with
  | some numeral =>
    refine .of_advance ⟨some (.number pos numeral.value), [], []⟩ inside room (by simp) nofun
      fun s ahead => ?_
    simp only [readNumber, ahead, token, spelled]
    rfl
  | none =>
    refine .of_advance ⟨none, [⟨.badNumber whole, pos⟩], []⟩ inside room (by simp) (by simp)
      fun s ahead => ?_
    simp only [readNumber, ahead, token, spelled]
    rfl

theorem soundlyReads_symbol {source : Bytes} {pos : Nat} (first : UInt8)
    (inside : pos < source.length) : SoundlyReads source pos first (readSymbol pos first) := by
  have room := (List.takeWhile_prefix continuesSymbol (l := source.drop (pos + 1))).length_le
  generalize name : first :: (source.drop (pos + 1)).takeWhile continuesSymbol = whole
  refine .of_advance ⟨some (.symbol pos whole), [], []⟩ inside room (by simp) nofun
    fun s ahead => ?_
  simp only [readSymbol, ahead, name]
  rfl

/-- What is read does not depend on what was noted before. -/
theorem exists_reads {limit level : Nat} {aim : Aim} {p behind : Place}
    {reader : Scan → Option Expr × Scan} (follows : ∀ s : Scan, s.place = behind →
      ∃ y q, Reads limit aim level p y q ∧ reader s = y.scanned q s) :
    ∃ y q, Reads limit aim level p y q ∧
      ∀ s : Scan, s.place = behind → reader s = y.scanned q s := by
  obtain ⟨y, q, reads, -⟩ := follows ⟨behind, [], []⟩ rfl
  refine ⟨y, q, reads, fun s here => ?_⟩
  obtain ⟨y', q', reads', same⟩ := follows s here
  obtain ⟨rfl, rfl⟩ := reads.unique reads'
  exact same

theorem soundlyReads_expr {source : Bytes} {pos : Nat} {first : UInt8}
    (byte : source[pos]? = some first) (solid : ¬isBlank first) (limit level : Nat) :
    SoundlyReads source pos first fun s => (readExpr limit level pos first s).val := by
  obtain ⟨loc, next⟩ := next?_skipBlanks_of_solid byte solid
  obtain ⟨y, q, reads, same⟩ := exists_reads fun s here =>
    reads_readExpr_and_readItems.1 limit level pos first s _ (here ▸ next) loc.symm
  have sound := reads.sound ((Place.Within.start source).advance pos) next
  rw [loc] at sound
  exact ⟨y, q, sound, same⟩

theorem soundlyReads_list {source : Bytes} {pos : Nat} (opening : source[pos]? = some lparen)
    (limit level : Nat) :
    SoundlyReads source pos lparen fun s => (readItems limit level pos (some []) s).val := by
  obtain ⟨inside, -⟩ := List.getElem?_eq_some_iff.1 opening
  generalize there : (Place.start source).advance (pos + 1) = behind
  have within : behind.Within source := there ▸ (Place.Within.start source).advance _
  have passed : behind.pos = pos + 1 := by rw [← there, Place.pos_advance]; exact Nat.zero_add _
  have stop : behind.stop = source.length := by
    rw [← there, Place.stop_advance (Nat.succ_le_of_lt inside)]
    exact Nat.zero_add _
  have follows (s : Scan) (here : s.place = behind) :
      ∃ y q, Reads limit (.items pos (some [])) level behind y q ∧
        (readItems limit level pos (some []) s).val = y.scanned q s := by
    rw [← here]
    exact reads_readExpr_and_readItems.2 limit level pos (some []) s
  obtain ⟨y, q, reads, same⟩ := exists_reads follows
  refine ⟨y, q, ⟨?_, reads.pos_le_length stop, reads.within within, reads.missing_iff rfl, ?_⟩, ?_⟩
  · rw [Nat.lt_iff_add_one_le, ← passed]
    exact reads.pos_le
  · exact fun e reported stray => absurd stray (reads.ne_strayClose nofun e reported)
  · rwa [there]

/-- Whatever reader is used, something sound comes of it. -/
theorem Reader.sound {source : Bytes} {pos : Nat} {first : UInt8}
    {reader : Scan → Option Expr × Scan} (byte : source[pos]? = some first) (solid : ¬isBlank first)
    (suits : Reader pos first (source.drop (pos + 1)) reader) :
    SoundlyReads source pos first reader := by
  obtain ⟨inside, -⟩ := List.getElem?_eq_some_iff.1 byte
  cases suits with
  | expr limit level => exact soundlyReads_expr byte solid limit level
  | list limit level opens =>
    subst opens
    exact soundlyReads_list byte limit level
  | string opens =>
    subst opens
    exact soundlyReads_string inside
  | number => exact soundlyReads_number first inside
  | symbol => exact soundlyReads_symbol first inside

theorem Yield.scanned_inj {y y' : Yield} {q q' : Place} {s : Scan}
    (same : y.scanned q s = y'.scanned q' s) : y = y' ∧ q = q' := by
  obtain ⟨result, errors, visits⟩ := y
  obtain ⟨result', errors', visits'⟩ := y'
  simpa [Yield.scanned, and_comm, and_assoc, and_left_comm] using same

theorem reads_of_round {limit : Nat} {s : Scan} {first : UInt8} {place behind : Place}
    {yield : Yield} (next : s.place.skipBlanks.next? = some (first, place))
    (same : (readExpr limit 0 s.place.skipBlanks.pos first (s.moveTo place)).val =
      yield.scanned behind (s.moveTo place)) : Reads limit .expr 0 s.place yield behind := by
  obtain ⟨y, q, reads, same'⟩ :=
    reads_readExpr_and_readItems.1 limit 0 _ first (s.moveTo place) s.place next rfl
  obtain ⟨rfl, rfl⟩ := Yield.scanned_inj (same.symm.trans same')
  exact reads

/-- Reading expressions goes on in rounds until the source ends. -/
theorem exists_rounds (limit : Nat) (forms : List Expr) (s : Scan) :
    ∃ rounds last, Scan.Rounds limit s rounds last ∧
      readForms limit forms s =
        (forms.reverse ++ rounds.flatMap (·.yield.result.toList), last) := by
  cases found : s.place.skipBlanks.next? with
  | none => exact ⟨_, _, .ended found, by simp [readForms_of_none limit forms found]⟩
  | some next =>
    obtain ⟨c, place⟩ := next
    obtain ⟨y, q, reads, same⟩ :=
      reads_readExpr_and_readItems.1 limit 0 _ c (s.moveTo place) s.place found rfl
    have shorter := reads.length_rest_lt.trans_le s.place.length_rest_skipBlanks_le
    obtain ⟨rounds, last, later, sameLater⟩ :=
      exists_rounds limit (y.result.toList ++ forms) (y.scanned q (s.moveTo place)).2
    refine ⟨_, _, .round found same later, ?_⟩
    have single : y.result.toList.reverse = y.result.toList := by cases y.result <;> rfl
    rw [readForms_of_reads forms found reads same, sameLater, List.reverse_append, single,
      List.append_assoc]
    rfl
termination_by s.place.rest.length

theorem Scan.Rounds.sound {limit : Nat} {s last : Scan} {rounds : List Round} {source : Bytes}
    (goes : s.Rounds limit rounds last) (within : s.place.Within source) :
    ∀ r ∈ rounds, source[r.start]? = some r.first ∧
      r.yield.Sound source r.start r.first r.behind := by
  induction goes with
  | ended => nofun
  | @round s _ _ _ _ _ _ next same _ ih =>
    have reads := reads_of_round next same
    have ahead : s.place.skipBlanks.rest = source.drop s.place.skipBlanks.pos := within.advance _
    rw [(Place.next?_eq_some next).1] at ahead
    refine List.forall_mem_cons.2 ⟨⟨?_, reads.sound within next⟩, ih (reads.within within)⟩
    rw [← Nat.add_zero s.place.skipBlanks.pos, ← List.getElem?_drop, ← ahead]
    rfl

/-- Every round takes up at least one byte. -/
theorem Scan.Rounds.length_le {limit : Nat} {s last : Scan} {rounds : List Round}
    (goes : s.Rounds limit rounds last) : rounds.length ≤ s.place.rest.length := by
  induction goes with
  | ended => exact Nat.zero_le _
  | round next same _ ih =>
    have shorter := (reads_of_round next same).length_rest_lt.trans_le
      (Place.length_rest_skipBlanks_le _)
    simp only [Yield.scanned] at ih
    rw [List.length_cons]
    omega

theorem Scan.Rounds.errors_eq {limit : Nat} {s last : Scan} {rounds : List Round}
    (goes : s.Rounds limit rounds last) :
    last.errors = (rounds.flatMap (·.yield.errors)).reverse ++ s.errors := by
  induction goes with
  | ended => rfl
  | round _ _ _ ih =>
    rw [ih]
    simp [Yield.scanned, Scan.moveTo]

/-- At every byte of a source that is no blank, every reader goes on by at least that byte and not
beyond the end. It adds its errors to those before, whatever these are, and has a result exactly if it
adds none. Only at a closing parenthesis does it report one as stray, so no list does. The source is
read in no more rounds than it has bytes; each of them ends further on than it started, so no byte is
ever passed to guarantee progress; and what they give and report is what the source gives and
reports. -/
theorem reading_makes_progress (source : Bytes) :
    (∀ (pos : Nat) (first : UInt8), source[pos]? = some first → ¬isBlank first →
      ∀ reader, Reader pos first (source.drop (pos + 1)) reader →
        ∃ (y : Yield) (q : Place), y.Sound source pos first q ∧ ∀ s : Scan,
          s.place = (Place.start source).advance (pos + 1) → reader s = y.scanned q s) ∧
    ∃ rounds last, (Scan.start source).Rounds maxDepth rounds last ∧
      rounds.length ≤ source.length ∧
      (∀ r ∈ rounds, source[r.start]? = some r.first ∧
        r.yield.Sound source r.start r.first r.behind) ∧
      (∀ r ∈ rounds, ¬r.Stalls) ∧
      (read source).forms = rounds.flatMap (·.yield.result.toList) ∧
      (read source).errors = rounds.flatMap (·.yield.errors) := by
  refine ⟨fun pos first byte solid reader suits => suits.sound byte solid, ?_⟩
  obtain ⟨rounds, last, goes, same⟩ := exists_rounds maxDepth [] (.start source)
  have sound := goes.sound (.start source)
  have further (r : Round) (member : r ∈ rounds) : ¬r.Stalls :=
    fun stalls => (sound r member).2.further.ne' stalls.2
  refine ⟨rounds, last, goes, goes.length_le, sound, further, ?_, ?_⟩
  · rw [read, same]
    rfl
  · rw [read, same]
    simp [goes.errors_eq, Scan.start]

/-- A stray closing parenthesis, then a list with a bad number and a string in it that are both left
open. -/
theorem reading_makes_progress_malformed :
    let source := bytes ") (1.2. \"x"
    let reader (s : Scan) := (readExpr maxDepth 7 2 lparen s).val
    source[2]? = some lparen ∧ ¬isBlank lparen ∧ Reader 2 lparen (source.drop 3) reader ∧
      (∃ (y : Yield) (q : Place), y.Sound source 2 lparen q ∧ ∀ s : Scan,
        s.place = (Place.start source).advance 3 → reader s = y.scanned q s) ∧
      ∃ rounds last, (Scan.start source).Rounds maxDepth rounds last ∧ rounds.length ≤ 10 ∧
        rounds.flatMap (·.yield.errors) = [⟨.strayClose, 0⟩, ⟨.badNumber (bytes "1.2."), 3⟩,
          ⟨.unclosedString (bytes "x"), 8⟩, ⟨.unclosedList, 2⟩] := by
  intro source reader
  obtain ⟨reads, rounds, last, goes, few, -, -, -, errors⟩ := reading_makes_progress source
  have byte : source[2]? = some lparen := by decide
  have solid : ¬isBlank lparen := by decide
  have reported : (read source).errors = [⟨.strayClose, 0⟩, ⟨.badNumber (bytes "1.2."), 3⟩,
      ⟨.unclosedString (bytes "x"), 8⟩, ⟨.unclosedList, 2⟩] := by
    clear reads rounds last goes few errors byte
    subst source
    decide +kernel
  exact ⟨byte, solid, .expr maxDepth 7, reads 2 lparen byte solid reader (.expr maxDepth 7),
    rounds, last, goes, few, errors.symm.trans reported⟩

end Sketch
