import Sketch.Proofs.Source.Skip

/-! Recursive descent as rules: what reading can meet at a place, what it gives there and where it
goes on. The readers follow the rules on every source, so each fact about them is an induction over
the rules. -/
namespace Sketch

/-- What is being read: an expression, or the elements that are left of the list opened at `loc`,
whose elements so far are `items`, newest first. -/
inductive Aim where
  | expr
  | items (loc : Nat) (items : Option (List Expr))

/-- What came of reading, with the notes in source order. -/
structure Yield where
  result : Option Expr
  errors : List ParseError
  visits : List Visit

inductive Reads (limit : Nat) : Aim → Nat → Place → Yield → Place → Prop where
  | string {loc : Nat} : p.token? = some (⟨loc, .string text⟩, q) →
      Reads limit .expr level p ⟨some (.string loc text), [], [⟨level, .string, loc⟩]⟩ q
  | openString : p.token? = some (⟨loc, .openString text⟩, q) →
      Reads limit .expr level p
        ⟨none, [⟨.unclosedString text, loc⟩], [⟨level, .string, loc⟩]⟩ q
  | number {loc : Nat} : p.token? = some (⟨loc, .number token⟩, q) →
      Numeral.ofToken? token = some numeral →
      Reads limit .expr level p ⟨some (.number loc numeral.value), [], [⟨level, .number, loc⟩]⟩ q
  | badNumber : p.token? = some (⟨loc, .number token⟩, q) → Numeral.ofToken? token = none →
      Reads limit .expr level p ⟨none, [⟨.badNumber token, loc⟩], [⟨level, .number, loc⟩]⟩ q
  | symbol {loc : Nat} : p.token? = some (⟨loc, .symbol name⟩, q) →
      Reads limit .expr level p ⟨some (.symbol loc name), [], [⟨level, .symbol, loc⟩]⟩ q
  | strayClose : p.token? = some (⟨loc, .closing⟩, q) →
      Reads limit .expr level p ⟨none, [⟨.strayClose, loc⟩], []⟩ q
  | tooDeep : p.token? = some (⟨loc, .opening⟩, q) → limit ≤ level →
      Reads limit .expr level p ⟨none, [⟨.tooDeep, loc⟩], [⟨level, .list, loc⟩]⟩
        (skipList false 0 q.pos q.rest)
  | list : p.token? = some (⟨loc, .opening⟩, q) → level < limit →
      Reads limit (.items loc (some [])) level q ⟨result, errors, visits⟩ r →
      Reads limit .expr level p ⟨result, errors, ⟨level, .list, loc⟩ :: visits⟩ r
  | ended : p.token? = none →
      Reads limit (.items loc items) level p ⟨none, [⟨.unclosedList, loc⟩], []⟩ p.skipBlanks
  | closed : p.token? = some (⟨stop, .closing⟩, q) →
      Reads limit (.items loc items) level p
        ⟨items.map fun items => .list loc items.reverse, [], []⟩ q
  | item : p.token? = some (t, behind) → t.lexeme ≠ .closing →
      Reads limit .expr (level + 1) p ⟨item, errors, visits⟩ q →
      Reads limit (.items loc (addItem items item)) level q ⟨result, errors', visits'⟩ r →
      Reads limit (.items loc items) level p ⟨result, errors ++ errors', visits ++ visits'⟩ r

/-- Reading expressions up to the end of the source. -/
inductive ReadsForms (limit : Nat) :
    Place → List Expr → List ParseError → List Visit → Prop where
  | ended : p.token? = none → ReadsForms limit p [] [] []
  | form : p.token? = some found → Reads limit .expr 0 p ⟨form, errors, visits⟩ q →
      ReadsForms limit q forms errors' visits' →
      ReadsForms limit p (form.toList ++ forms) (errors ++ errors') (visits ++ visits')

/-- The same as a scan that was at `s` before reading notes it. -/
def Yield.scanned (y : Yield) (q : Place) (s : Scan) : Option Expr × Scan :=
  (y.result, ⟨q, y.errors.reverse ++ s.errors, y.visits.reverse ++ s.visits⟩)

theorem Reads.stop {limit level : Nat} {aim : Aim} {p q : Place} {y : Yield}
    (reads : Reads limit aim level p y q) : q.stop = p.stop := by
  induction reads with
  | string found | openString found | number found _ | badNumber found _ | symbol found
  | strayClose found | closed found => exact Place.stop_of_token? found
  | tooDeep found _ =>
    rw [Place.stop_skipList, ← Place.stop_of_token? found]
    rfl
  | list found _ _ ih => rw [ih, Place.stop_of_token? found]
  | ended => exact Place.stop_skipBlanks _
  | item _ _ _ _ first later => rw [later, first]

theorem Reads.length_rest_le {limit level : Nat} {aim : Aim} {p q : Place} {y : Yield}
    (reads : Reads limit aim level p y q) : q.rest.length ≤ p.rest.length := by
  induction reads with
  | string found | openString found | number found _ | badNumber found _ | symbol found
  | strayClose found | closed found => exact (Place.length_rest_of_token? found).le
  | tooDeep found _ =>
    exact (length_rest_skipList_le ..).trans (Place.length_rest_of_token? found).le
  | list found _ _ ih => exact ih.trans (Place.length_rest_of_token? found).le
  | ended => exact Place.length_rest_skipBlanks_le _
  | item _ _ _ _ first later => exact later.trans first

theorem Reads.pos_le {limit level : Nat} {aim : Aim} {p q : Place} {y : Yield}
    (reads : Reads limit aim level p y q) : p.pos ≤ q.pos := by
  have stop := reads.stop
  have shorter := reads.length_rest_le
  simp only [Place.stop] at stop
  omega

/-- What is read as an expression takes up at least the byte it starts with. -/
theorem Reads.length_rest_lt {limit level : Nat} {p q : Place} {y : Yield}
    (reads : Reads limit .expr level p y q) : q.rest.length < p.skipBlanks.rest.length := by
  cases reads with
  | string found | openString found | number found _ | badNumber found _ | symbol found
  | strayClose found => exact Place.length_rest_lt_skipBlanks found
  | tooDeep found _ =>
    exact (length_rest_skipList_le ..).trans_lt (Place.length_rest_lt_skipBlanks found)
  | list found _ items =>
    exact items.length_rest_le.trans_lt (Place.length_rest_lt_skipBlanks found)

theorem Reads.pos_lt {limit level : Nat} {p q : Place} {y : Yield}
    (reads : Reads limit .expr level p y q) : p.skipBlanks.pos < q.pos := by
  have stop := reads.stop
  have shorter := reads.length_rest_lt
  rw [← Place.stop_skipBlanks p] at stop
  simp only [Place.stop] at stop
  omega

/-- Nothing that was to be read is missing so far. -/
def Aim.Whole : Aim → Prop
  | .expr => True
  | .items _ before => before.isSome

theorem isSome_addItem (items : Option (List Expr)) (item : Option Expr) :
    (addItem items item).isSome ↔ items.isSome ∧ item.isSome := by
  cases items <;> cases item <;> simp [addItem]

/-- A result is missing exactly if an error was reported. -/
theorem Reads.result_isSome_iff {limit level : Nat} {aim : Aim} {p q : Place} {y : Yield}
    (reads : Reads limit aim level p y q) :
    y.result.isSome ↔ aim.Whole ∧ y.errors = [] := by
  induction reads with
  | string | number | symbol => simp [Aim.Whole]
  | openString | badNumber | strayClose | tooDeep | ended => simp
  | list _ _ _ ih => simpa [Aim.Whole] using ih
  | closed => simp [Aim.Whole]
  | item _ _ _ _ first later =>
    simp only [Aim.Whole, true_and] at first later ⊢
    rw [later, List.append_eq_nil_iff, ← first, isSome_addItem, and_assoc]

theorem Reads.missing_iff {limit level : Nat} {aim : Aim} {p q : Place} {y : Yield}
    (reads : Reads limit aim level p y q) (whole : aim.Whole) :
    y.result = none ↔ y.errors ≠ [] := by
  have some := reads.result_isSome_iff
  rw [← Option.not_isSome_iff_eq_none, some]
  simp [whole]

theorem readString_of_mem {s : Scan} (loc : Nat) (closed : quote ∈ s.place.rest) :
    readString loc s = (some (.string loc (s.place.rest.takeWhile (· != quote))),
      s.moveTo (s.place.advance ((s.place.rest.takeWhile (· != quote)).length + 1))) := by
  obtain ⟨behind, split⟩ := takeWhile_append_of_quote_mem closed
  have rest : s.place.rest.drop (s.place.rest.takeWhile (· != quote)).length = quote :: behind := by
    have dropped : (s.place.rest.takeWhile (· != quote) ++ quote :: behind).drop
        (s.place.rest.takeWhile (· != quote)).length = quote :: behind := List.drop_left' rfl
    rwa [split] at dropped
  have found : (s.place.advance (s.place.rest.takeWhile (· != quote)).length).next? =
      some (quote, s.place.advance ((s.place.rest.takeWhile (· != quote)).length + 1)) := by
    simp [Place.next?, Place.advance, rest, ← List.drop_drop, Nat.add_assoc]
  simp [readString, found]

theorem readString_of_not_mem {s : Scan} (loc : Nat) (clean : quote ∉ s.place.rest) :
    readString loc s = (none, (s.moveTo (s.place.advance s.place.rest.length)).report
      (.unclosedString s.place.rest) loc) := by
  have ended : (s.place.advance s.place.rest.length).next? = none := by
    simp [Place.next?, Place.advance]
  simp [readString, takeWhile_of_quote_not_mem clean, ended]

/-- The reader of expressions without the proof that it moves on. -/
theorem val_readExpr (limit level loc : Nat) (first : UInt8) (s : Scan) :
    (readExpr limit level loc first s).val =
      if first == lparen then
        if level < limit then
          (readItems limit level loc (some []) (s.visit level .list loc)).val
        else
          (none, ((s.visit level .list loc).report .tooDeep loc).moveTo
            (skipList false 0 s.place.pos s.place.rest))
      else if first == quote then readString loc (s.visit level .string loc)
      else if first == rparen then (none, s.report .strayClose loc)
      else if Numeral.starts first s.place.rest then
        readNumber loc first (s.visit level .number loc)
      else readSymbol loc first (s.visit level .symbol loc) := by
  rw [readExpr]
  split
  · split <;> rfl
  split
  · rfl
  split
  · rfl
  split <;> rfl

theorem readItems_of_none {s : Scan} (limit level loc : Nat) (items : Option (List Expr))
    (ended : s.place.skipBlanks.next? = none) :
    (readItems limit level loc items s).val =
      (none, (s.moveTo s.place.skipBlanks).report .unclosedList loc) := by
  rw [readItems]
  split
  · rfl
  · simp_all

theorem readItems_of_close {s : Scan} {place : Place} (limit level loc : Nat)
    (items : Option (List Expr)) (found : s.place.skipBlanks.next? = some (rparen, place)) :
    (readItems limit level loc items s).val =
      (items.map fun items => .list loc items.reverse, s.moveTo place) := by
  rw [readItems]
  split
  · simp_all
  · next c behind found' =>
    rw [found] at found'
    cases found'
    simp

theorem readItems_of_item {s : Scan} {c : UInt8} {place : Place} (limit level loc : Nat)
    (items : Option (List Expr)) (found : s.place.skipBlanks.next? = some (c, place))
    (inside : c ≠ rparen) :
    (readItems limit level loc items s).val =
      let r := (readExpr limit (level + 1) s.place.skipBlanks.pos c (s.moveTo place)).val
      (readItems limit level loc (addItem items r.1) r.2).val := by
  rw [readItems]
  split
  · simp_all
  · next c' behind found' =>
    rw [found] at found'
    cases found'
    simp [inside]

/-- Reading an expression or the rest of a list follows the rules. -/
theorem reads_readExpr_and_readItems :
    (∀ (limit level loc : Nat) (first : UInt8) (s : Scan) (p : Place),
      p.skipBlanks.next? = some (first, s.place) → loc = p.skipBlanks.pos →
      ∃ y q, Reads limit .expr level p y q ∧
        (readExpr limit level loc first s).val = y.scanned q s) ∧
    (∀ (limit level loc : Nat) (items : Option (List Expr)) (s : Scan),
      ∃ y q, Reads limit (.items loc items) level s.place y q ∧
        (readItems limit level loc items s).val = y.scanned q s) := by
  apply readExpr.mutual_induct
  case case1 =>
    rintro limit level loc first s isOpen inside ⟨y, q, reads, same⟩ p found rfl
    have token := Place.token?_of_next? found
    obtain rfl := eq_of_beq isOpen
    refine ⟨⟨y.result, y.errors, ⟨level, .list, p.skipBlanks.pos⟩ :: y.visits⟩, q,
      .list token inside reads, ?_⟩
    rw [val_readExpr, if_pos isOpen, if_pos inside, same]
    simp [Yield.scanned, Scan.visit]
  case case2 =>
    rintro limit level loc first s isOpen deep p found rfl
    have token := Place.token?_of_next? found
    obtain rfl := eq_of_beq isOpen
    refine ⟨_, _, .tooDeep token (Nat.le_of_not_lt deep), ?_⟩
    rw [val_readExpr, if_pos isOpen, if_neg deep]
    rfl
  case case3 =>
    rintro limit level loc first s notOpen isQuote p found rfl
    have token := Place.token?_of_next? found
    obtain rfl := eq_of_beq isQuote
    rw [val_readExpr, if_neg notOpen, if_pos isQuote]
    by_cases closed : quote ∈ s.place.rest
    · simp only [lexemeAt_quote, closed, if_true] at token
      refine ⟨_, _, .string token, ?_⟩
      rw [readString_of_mem (s := s.visit level .string p.skipBlanks.pos) _ closed]
      simp [Yield.scanned, Lexeme.bytes, Scan.moveTo, Scan.visit]
    · simp only [lexemeAt_quote, closed, if_false, takeWhile_of_quote_not_mem closed] at token
      refine ⟨_, _, .openString token, ?_⟩
      rw [readString_of_not_mem (s := s.visit level .string p.skipBlanks.pos) _ closed]
      rfl
  case case4 =>
    rintro limit level loc first s notOpen notQuote isClose p found rfl
    have token := Place.token?_of_next? found
    obtain rfl := eq_of_beq isClose
    refine ⟨_, _, .strayClose token, ?_⟩
    rw [val_readExpr, if_neg notOpen, if_neg notQuote, if_pos isClose]
    rfl
  case case5 =>
    rintro limit level loc first s notOpen notQuote notClose starts p found rfl
    have token := Place.token?_of_next? found
    rw [lexemeAt_eq, if_neg notOpen, if_neg notClose, if_neg notQuote, if_pos starts] at token
    rw [val_readExpr, if_neg notOpen, if_neg notQuote, if_neg notClose, if_pos starts]
    cases spelled : Numeral.ofToken? (first :: s.place.rest.takeWhile Numeral.continues) with
    | some numeral =>
      refine ⟨_, _, .number token spelled, ?_⟩
      simp [readNumber, spelled, Yield.scanned, Lexeme.bytes, Scan.moveTo, Scan.visit]
    | none =>
      refine ⟨_, _, .badNumber token spelled, ?_⟩
      simp [readNumber, spelled, Yield.scanned, Lexeme.bytes, Scan.moveTo, Scan.report, Scan.visit]
  case case6 =>
    rintro limit level loc first s notOpen notQuote notClose notNumber p found rfl
    have token := Place.token?_of_next? found
    rw [lexemeAt_eq, if_neg notOpen, if_neg notClose, if_neg notQuote, if_neg notNumber] at token
    refine ⟨_, _, .symbol token, ?_⟩
    rw [val_readExpr, if_neg notOpen, if_neg notQuote, if_neg notClose, if_neg notNumber]
    rfl
  case case7 =>
    intro limit level loc items s _ ended
    refine ⟨_, _, .ended (Place.token?_eq_none_iff.2 ended), ?_⟩
    rw [readItems_of_none limit level loc items ended]
    rfl
  case case8 =>
    intro limit level loc items s _ c place found _ isClose
    obtain rfl := eq_of_beq isClose
    refine ⟨_, _, .closed (Place.token?_of_next? found), ?_⟩
    rw [readItems_of_close limit level loc items found]
    rfl
  case case9 =>
    intro limit level loc items s _ c place found _ notClose item t nearer read _ first later
    have inside : c ≠ rparen := by simpa using notClose
    obtain ⟨y, q, readsFirst, sameFirst⟩ := first s.place found rfl
    obtain ⟨y', q', readsLater, sameLater⟩ := later
    rw [read] at sameFirst
    cases sameFirst
    refine ⟨_, _, .item (Place.token?_of_next? found) (lexemeAt_ne_closing inside) readsFirst
      readsLater, ?_⟩
    rw [readItems_of_item limit level loc items found inside, read]
    simp only [sameLater]
    simp [Yield.scanned, Scan.moveTo]

theorem readForms_of_none {s : Scan} (limit : Nat) (forms : List Expr)
    (ended : s.place.skipBlanks.next? = none) :
    readForms limit forms s = (forms.reverse, s.moveTo s.place.skipBlanks) := by
  rw [readForms]
  split
  · rfl
  · simp_all

theorem Scan.guaranteeProgress_eq_self {start : Nat} {s : Scan} (further : start < s.place.pos) :
    s.guaranteeProgress start = s := by
  unfold guaranteeProgress
  split
  · rfl
  · exact if_neg (by simpa using further.ne')

/-- Nothing has to guarantee progress, and what was read without errors is there. -/
theorem readForms_of_reads {limit : Nat} {s : Scan} {c : UInt8} {place q : Place} {y : Yield}
    (forms : List Expr) (found : s.place.skipBlanks.next? = some (c, place))
    (reads : Reads limit .expr 0 s.place y q)
    (same : (readExpr limit 0 s.place.skipBlanks.pos c (s.moveTo place)).val =
      y.scanned q (s.moveTo place)) :
    readForms limit forms s =
      readForms limit (y.result.toList ++ forms) (y.scanned q (s.moveTo place)).2 := by
  have further : (y.scanned q (s.moveTo place)).2.guaranteeProgress s.place.skipBlanks.pos =
      (y.scanned q (s.moveTo place)).2 := Scan.guaranteeProgress_eq_self reads.pos_lt
  have reported : s.errors.length < (y.scanned q (s.moveTo place)).2.errors.length ↔
      y.errors ≠ [] := by
    simp [Yield.scanned, Scan.moveTo, List.length_pos_iff]
  have missing := reads.missing_iff trivial
  rw [readForms]
  split
  · simp_all
  · next c' place' found' =>
    rw [found] at found'
    cases found'
    split
    next item t nearer read =>
    rw [read] at same
    cases same
    split
    · next more =>
      rw [missing.2 (reported.1 more)]
      exact congrArg (readForms limit forms) further
    · next clean =>
      obtain ⟨form, whole⟩ := Option.ne_none_iff_exists'.1 (mt missing.1 (mt reported.2 clean))
      rw [whole]
      rfl

/-- Reading a whole source follows the rules. -/
theorem readsForms_readForms (limit : Nat) (forms : List Expr) (s : Scan) :
    ∃ later errors visits q, ReadsForms limit s.place later errors visits ∧
      readForms limit forms s =
        (forms.reverse ++ later, ⟨q, errors.reverse ++ s.errors, visits.reverse ++ s.visits⟩) := by
  cases found : s.place.skipBlanks.next? with
  | none =>
    refine ⟨_, _, _, s.place.skipBlanks, .ended (Place.token?_eq_none_iff.2 found), ?_⟩
    rw [readForms_of_none limit forms found]
    simp [Scan.moveTo]
  | some next =>
    obtain ⟨c, place⟩ := next
    obtain ⟨y, q, readsFirst, sameFirst⟩ :=
      reads_readExpr_and_readItems.1 limit 0 _ c (s.moveTo place) s.place found rfl
    have shorter := readsFirst.length_rest_lt.trans_le s.place.length_rest_skipBlanks_le
    obtain ⟨later, errors, visits, r, readsLater, sameLater⟩ :=
      readsForms_readForms limit (y.result.toList ++ forms) (y.scanned q (s.moveTo place)).2
    refine ⟨_, _, _, r, .form (Place.token?_of_next? found) readsFirst readsLater, ?_⟩
    rw [readForms_of_reads forms found readsFirst sameFirst, sameLater]
    cases y.result <;> simp [Yield.scanned, Scan.moveTo]
termination_by s.place.rest.length

theorem readsForms_read (source : Bytes) :
    ReadsForms maxDepth (.start source) (read source).forms (read source).errors
      (read source).visits := by
  obtain ⟨later, errors, visits, q, reads, same⟩ :=
    readsForms_readForms maxDepth [] (.start source)
  have reading : read source = ⟨later, errors, visits⟩ := by
    rw [read, same]
    simp [Scan.start]
  rw [reading]
  exact reads

end Sketch
