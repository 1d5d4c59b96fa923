import Sketch.Proofs.Source.Joined

/-! Where reading goes on behind a list. A list that is nested too deeply is skipped by counting
parentheses. Reading it would have ended at the same place, whatever there is in it, so the rest of
the source is read as if there were no limit. -/
namespace Sketch

/-- To skip several open lists is to skip the inner ones first. -/
theorem Place.skipList_add (p : Place) (outer depth : Nat) :
    skipList false (outer + 1 + depth) p.pos p.rest =
      skipList false outer (skipList false depth p.pos p.rest).pos
        (skipList false depth p.pos p.rest).rest := by
  induction p using Place.tokens.induct generalizing depth with
  | case1 p ended =>
    have last := next?_eq_none (token?_eq_none_iff.1 ended)
    simp only [skipList_of_none ended]
    rw [last, skipList, ← last]
  | case2 p t q found _ ih =>
    simp only [skipList_of_token? found]
    obtain ⟨loc, lexeme⟩ := t
    cases lexeme with
    | opening => exact ih (depth + 1)
    | closing =>
      cases depth with
      | zero => rfl
      | succ depth => exact ih depth
    | string | openString | number | symbol => exact ih depth

/-- How skipping sees what is read for an aim. It does not notice an expression, whatever the number
of lists it is in; the rest of a list brings it to an end. -/
def Aim.Passes : Aim → Place → Place → Prop
  | .expr, p, q => (∀ loc r, p.token? ≠ some (⟨loc, .closing⟩, r)) → ∀ depth,
    skipList false depth p.pos p.rest = skipList false depth q.pos q.rest
  | .items .., p, q => skipList false 0 p.pos p.rest = q

/-- Every rule moves a reader as far as skipping goes. A list inside the list is skipped first. -/
theorem Reads.passes {limit level : Nat} {aim : Aim} {p q : Place} {y : Yield}
    (reads : Reads limit aim level p y q) : aim.Passes p q := by
  induction reads with
  | string found | openString found | number found _ | badNumber found _ | symbol found =>
    intro _ depth
    exact Place.skipList_of_token? found depth
  | strayClose found => exact fun unclosed => absurd found (unclosed _ _)
  | tooDeep found _ =>
    intro _ depth
    rw [Place.skipList_of_token? found]
    exact Place.skipList_add _ depth 0
  | list found _ _ ih =>
    intro _ depth
    rw [Place.skipList_of_token? found, ← ih]
    exact Place.skipList_add _ depth 0
  | ended found => exact Place.skipList_of_none found 0
  | closed found => exact Place.skipList_of_token? found 0
  | item found unclosed _ _ first later =>
    exact (first (Place.token?_ne_closing found unclosed) 0).trans later

/-- The lists that are open around what is read for an aim. -/
def Aim.lists (level : Nat) : Aim → Nat
  | .expr => level
  | .items .. => level + 1

/-- There cannot be more lists inside each other than there are bytes. -/
theorem Reads.ne_tooDeep {limit level : Nat} {aim : Aim} {p q : Place} {y : Yield}
    (reads : Reads limit aim level p y q) (room : aim.lists level + p.rest.length ≤ limit) :
    ∀ e ∈ y.errors, e.flaw ≠ .tooDeep := by
  induction reads with
  | string | number | symbol | closed => exact nofun
  | openString | badNumber | strayClose | ended => simp
  | tooDeep found deep =>
    have shorter := Place.length_rest_of_token? found
    simp only [Aim.lists] at room
    omega
  | list found _ _ ih =>
    have shorter := Place.length_rest_of_token? found
    apply ih
    simp only [Aim.lists] at room ⊢
    omega
  | item _ _ readsFirst _ first later =>
    have shorter := readsFirst.length_rest_le
    simp only [Aim.lists] at room first later
    intro e member
    rcases List.mem_append.1 member with member | member
    · exact first room e member
    · exact later (by omega) e member

/-- A limit that is not exceeded does not matter. -/
theorem Reads.raise {limit limit' level : Nat} {aim : Aim} {p q : Place} {y : Yield}
    (reads : Reads limit aim level p y q) (higher : limit ≤ limit')
    (shallow : ∀ e ∈ y.errors, e.flaw ≠ .tooDeep) : Reads limit' aim level p y q := by
  induction reads with
  | string found => exact .string found
  | openString found => exact .openString found
  | number found spelled => exact .number found spelled
  | badNumber found spelled => exact .badNumber found spelled
  | symbol found => exact .symbol found
  | strayClose found => exact .strayClose found
  | tooDeep => simp at shallow
  | list found room _ ih => exact .list found (room.trans_le higher) (ih shallow)
  | ended found => exact .ended found
  | closed found => exact .closed found
  | item found unclosed _ _ first later =>
    obtain ⟨front, back⟩ := List.forall_mem_append.1 shallow
    exact .item found unclosed (first front) (later back)

/-- However a list is read, to skip it leads to the same place. -/
theorem Reads.eq_skipList {limit level loc : Nat} {p q r : Place} {y : Yield}
    (reads : Reads limit .expr level p y r) (found : p.token? = some (⟨loc, .opening⟩, q)) :
    r = skipList false 0 q.pos q.rest := by
  cases reads with
  | tooDeep found' _ =>
    rw [found] at found'
    cases found'
    rfl
  | list found' _ items =>
    rw [found] at found'
    cases found'
    exact items.passes.symm
  | _ => simp_all

theorem next?_skipBlanks_of_solid {source : Bytes} {pos : Nat} {c : UInt8}
    (byte : source[pos]? = some c) (solid : ¬isBlank c) :
    let here := ((Place.start source).advance pos).skipBlanks
    here.pos = pos ∧ here.next? = some (c, (Place.start source).advance (pos + 1)) := by
  obtain ⟨inside, same⟩ := List.getElem?_eq_some_iff.1 byte
  have rest : source.drop pos = c :: source.drop (pos + 1) := by
    rw [List.drop_eq_getElem_cons inside, same]
  simp [Place.next?, Place.skipBlanks, Place.advance, Place.start, rest, solid]

theorem next?_skipBlanks_of_opening {source : Bytes} {pos : Nat}
    (opening : source[pos]? = some lparen) :
    let here := ((Place.start source).advance pos).skipBlanks
    here.pos = pos ∧ here.next? = some (lparen, (Place.start source).advance (pos + 1)) :=
  next?_skipBlanks_of_solid opening (by decide)

/-- Wherever a list opens in a source, to skip it leads to the place where reading it ends, under
any limit. If there is room for as many lists as there are bytes, nothing is skipped and the limit
does not matter. -/
theorem skipping_ends_where_reading_does {source : Bytes} {pos : Nat}
    (opening : source[pos]? = some lparen) (level : Nat) (s : Scan) :
    let behind := (Place.start source).advance (pos + 1)
    let skipped := skipList false 0 behind.pos behind.rest
    let list (limit : Nat) := (readExpr limit level pos lparen (s.moveTo behind)).val
    (∀ limit ≤ level, list limit =
      (none, (((s.moveTo behind).visit level .list pos).report .tooDeep pos).moveTo skipped)) ∧
    (∀ limit, (list limit).2.place = skipped) ∧
    ∃ y : Yield, (∀ e ∈ y.errors, e.flaw ≠ .tooDeep) ∧
      ∀ limit, level + source.length ≤ limit → list limit = y.scanned skipped (s.moveTo behind) := by
  intro behind skipped list
  obtain ⟨loc, next⟩ := next?_skipBlanks_of_opening opening
  have found := Place.token?_of_next? next
  have reading (limit : Nat) : ∃ y, Reads limit .expr level ((Place.start source).advance pos) y
      skipped ∧ list limit = y.scanned skipped (s.moveTo behind) := by
    obtain ⟨y, q, reads, same⟩ := reads_readExpr_and_readItems.1 limit level pos lparen
      (s.moveTo behind) _ next loc.symm
    obtain rfl : q = skipped := reads.eq_skipList found
    exact ⟨y, reads, same⟩
  refine ⟨fun limit deep => ?_, fun limit => ?_, ?_⟩
  · show (readExpr ..).val = _
    rw [val_readExpr, if_pos (beq_self_eq_true lparen), if_neg (Nat.not_lt.2 deep)]
    rfl
  · obtain ⟨y, -, same⟩ := reading limit
    rw [same]
    rfl
  · obtain ⟨y, reads, -⟩ := reading (level + source.length)
    have shallow := reads.ne_tooDeep (by simp [Aim.lists, Place.start])
    refine ⟨y, shallow, fun limit higher => ?_⟩
    obtain ⟨y', reads', same⟩ := reading limit
    obtain ⟨rfl, -⟩ := (reads.raise higher shallow).unique reads'
    exact same

/-- Strings with parentheses, a bad number and a zero byte do not matter: the first list ends before
`y`, whether it is skipped or read. The second one is left open, as is a string in it. -/
theorem skipping_ends_where_reading_does_malformed :
    let source := bytes "(a\")\"(1.2." ++ 0 :: bytes ") \"(\" x) y"
    let endless := bytes "(a (\")"
    let place (limit : Nat) (source : Bytes) :=
      (readExpr limit 1000 0 lparen ⟨(Place.start source).advance 1, [], []⟩).val.2.place
    source[0]? = some lparen ∧ endless[0]? = some lparen ∧
      place 1000 source = ⟨19, bytes " y"⟩ ∧ place 2000 source = ⟨19, bytes " y"⟩ ∧
      place 1000 endless = ⟨6, []⟩ ∧ place 2000 endless = ⟨6, []⟩ := by
  intro source endless place
  have opens : source[0]? = some lparen := by decide
  have opens' : endless[0]? = some lparen := by decide
  have ends := (skipping_ends_where_reading_does opens 1000 (.start source)).2.1
  have ends' := (skipping_ends_where_reading_does opens' 1000 (.start endless)).2.1
  exact ⟨opens, opens', ends 1000, ends 2000, ends' 1000, ends' 2000⟩

end Sketch
