import Sketch.Proofs.Expr.Relocate
import Sketch.Proofs.Source.Acceptance

/-! Two sources joined at a blank. If nothing is left open at the end of the first one, reading comes
to the second as if it had started there: what it gives, reports and notes is what the two sources
give alone, with the second one moved behind the first. -/
namespace Sketch

/-- The rules lead to one result only. -/
theorem Reads.unique {limit level : Nat} {aim : Aim} {p q q' : Place} {y y' : Yield}
    (reads : Reads limit aim level p y q) (reads' : Reads limit aim level p y' q') :
    y = y' ∧ q = q' := by
  induction reads generalizing y' q' with
  | string found | openString found | number found _ | badNumber found _ | symbol found
  | strayClose found | ended found => cases reads' <;> simp_all
  | tooDeep found deep =>
    cases reads' with
    | list _ room => omega
    | _ => simp_all
  | list found room _ ih =>
    cases reads' with
    | list found' _ inner =>
      rw [found] at found'
      cases found'
      obtain ⟨same, rfl⟩ := ih inner
      cases same
      exact ⟨rfl, rfl⟩
    | tooDeep _ deep => omega
    | _ => simp_all
  | closed found =>
    cases reads' with
    | item found' unclosed =>
      rw [found] at found'
      cases found'
      exact absurd rfl unclosed
    | _ => simp_all
  | item found unclosed _ _ first later =>
    cases reads' with
    | item _ _ readsFirst readsLater =>
      obtain ⟨same, rfl⟩ := first readsFirst
      cases same
      obtain ⟨same, rfl⟩ := later readsLater
      cases same
      exact ⟨rfl, rfl⟩
    | ended => simp_all
    | closed closing =>
      rw [found] at closing
      cases closing
      exact absurd rfl unclosed

theorem ReadsForms.unique {limit : Nat} {p : Place} {forms forms' : List Expr}
    {errors errors' : List ParseError} {visits visits' : List Visit}
    (reads : ReadsForms limit p forms errors visits)
    (reads' : ReadsForms limit p forms' errors' visits') :
    forms = forms' ∧ errors = errors' ∧ visits = visits' := by
  induction reads generalizing forms' errors' visits' with
  | ended found => cases reads' <;> simp_all
  | form found readsFirst _ ih =>
    cases reads' with
    | ended => simp_all
    | form _ readsFirst' readsLater =>
      obtain ⟨same, rfl⟩ := readsFirst.unique readsFirst'
      cases same
      obtain ⟨rfl, rfl, rfl⟩ := ih readsLater
      exact ⟨rfl, rfl, rfl⟩

def Expr.shift (n : Nat) (e : Expr) : Expr := e.relocate (· + n)

def ParseError.shift (n : Nat) (e : ParseError) : ParseError := { e with loc := e.loc + n }

def Visit.shift (n : Nat) (v : Visit) : Visit := { v with loc := v.loc + n }

def Token.shift (n : Nat) (t : Token) : Token := { t with loc := t.loc + n }

def Place.shift (n : Nat) (p : Place) : Place := { p with pos := p.pos + n }

def Yield.shift (n : Nat) (y : Yield) : Yield :=
  ⟨y.result.map (·.shift n), y.errors.map (·.shift n), y.visits.map (·.shift n)⟩

def Aim.shift (n : Nat) : Aim → Aim
  | .expr => .expr
  | .items loc before => .items (loc + n) (before.map (List.map (·.shift n)))

theorem Expr.shift_list (n : Nat) (loc : Int) (elements : List Expr) :
    (Expr.list loc elements).shift n = .list (loc + n) (elements.map (·.shift n)) := by
  rw [shift, relocate, relocateAll_eq_map]
  rfl

theorem closeItems_shift (n loc : Nat) (items : Option (List Expr)) :
    (items.map fun items => Expr.list loc items.reverse).map (·.shift n) =
      (items.map (List.map (·.shift n))).map fun items => .list (loc + n : Nat) items.reverse := by
  cases items <;> simp [Expr.shift_list]

theorem addItem_shift (n : Nat) (items : Option (List Expr)) (item : Option Expr) :
    addItem (items.map (List.map (·.shift n))) (item.map (·.shift n)) =
      (addItem items item).map (List.map (·.shift n)) := by
  cases items <;> cases item <;> simp [addItem]

namespace Place

theorem advance_shift (p : Place) (n count : Nat) :
    (p.shift n).advance count = (p.advance count).shift n := by
  simp only [advance, shift, mk.injEq, and_true]
  omega

theorem skipBlanks_shift (p : Place) (n : Nat) : (p.shift n).skipBlanks = p.skipBlanks.shift n :=
  advance_shift p n _

theorem next?_shift (p : Place) (n : Nat) :
    (p.shift n).next? = p.next?.map fun (c, q) => (c, q.shift n) := by
  obtain ⟨pos, rest⟩ := p
  cases rest with
  | nil => rfl
  | cons c cs =>
    simp only [next?, shift, Option.map_some, Option.some.injEq, Prod.mk.injEq, mk.injEq,
      true_and, and_true]
    omega

theorem token?_shift (p : Place) (n : Nat) :
    (p.shift n).token? = p.token?.map (Prod.map (Token.shift n) (Place.shift n)) := by
  simp only [token?_eq, skipBlanks_shift, next?_shift, Option.map_map]
  congr 1
  funext found
  simp only [Function.comp_apply, advance_shift]
  rfl

theorem skipList_shift (n : Nat) (inString : Bool) (depth pos : Nat) (rest : Bytes) :
    skipList inString depth (pos + n) rest = (skipList inString depth pos rest).shift n := by
  have onward (pos : Nat) : pos + n + 1 = pos + 1 + n := by omega
  fun_induction skipList inString depth pos rest <;> simp_all [skipList, shift]

end Place

/-- Reading does not depend on how much of the source lies behind. -/
theorem Reads.shift {limit level : Nat} {aim : Aim} {p q : Place} {y : Yield}
    (reads : Reads limit aim level p y q) (n : Nat) :
    Reads limit (aim.shift n) level (p.shift n) (y.shift n) (q.shift n) := by
  have moved {p q : Place} {t : Token} (found : p.token? = some (t, q)) :
      (p.shift n).token? = some (t.shift n, q.shift n) := by
    rw [Place.token?_shift, found]
    rfl
  induction reads with
  | string found => exact .string (moved found)
  | openString found => exact .openString (moved found)
  | number found spelled => exact .number (moved found) spelled
  | badNumber found spelled => exact .badNumber (moved found) spelled
  | symbol found => exact .symbol (moved found)
  | strayClose found => exact .strayClose (moved found)
  | tooDeep found deep =>
    rw [← Place.skipList_shift]
    exact .tooDeep (moved found) deep
  | list found room _ ih => exact .list (moved found) room ih
  | ended found =>
    rw [← Place.skipBlanks_shift]
    refine .ended ?_
    rw [Place.token?_shift, found]
    rfl
  | closed found =>
    simp only [Yield.shift, closeItems_shift]
    exact .closed (moved found)
  | item found unclosed _ _ first later =>
    rw [Aim.shift, ← addItem_shift] at later
    simp only [Yield.shift, List.map_append]
    exact .item (moved found) unclosed first later

theorem ReadsForms.shift {limit : Nat} {p : Place} {forms : List Expr} {errors : List ParseError}
    {visits : List Visit} (reads : ReadsForms limit p forms errors visits) (n : Nat) :
    ReadsForms limit (p.shift n) (forms.map (·.shift n)) (errors.map (·.shift n))
      (visits.map (·.shift n)) := by
  induction reads with
  | ended found =>
    refine .ended ?_
    rw [Place.token?_shift, found]
    rfl
  | form found readsFirst _ ih =>
    have moved := congrArg (Option.map (Prod.map (Token.shift n) (Place.shift n))) found
    rw [← Place.token?_shift] at moved
    simp only [List.map_append, ← Option.toList_map]
    exact .form moved (readsFirst.shift n) ih

/-- A place of a source that goes on behind its end. -/
def Place.followedBy (p : Place) (more : Bytes) : Place := { p with rest := p.rest ++ more }

/-- Flaws that show only at the end of a source, because it does not go on. -/
def Flaw.AtEnd : Flaw → Prop
  | .unclosedString _ | .unclosedList => True
  | .strayClose | .badNumber _ | .tooDeep => False

theorem not_continues_of_isBlank {w : UInt8} (separating : isBlank w) :
    Numeral.continues w = false := by
  simp only [isBlank, Numeral.continues, isDigit] at *
  grind

theorem not_continuesSymbol_of_isBlank {w : UInt8} (separating : isBlank w) :
    continuesSymbol w = false := by
  simp [continuesSymbol, separating]

theorem starts_append {w : UInt8} (separating : isBlank w) (c : UInt8) (rest more : Bytes) :
    Numeral.starts c (rest ++ w :: more) = Numeral.starts c rest := by
  have digitless : isDigit w = false := by
    have stops := not_continues_of_isBlank separating
    rw [Numeral.continues, Bool.or_eq_false_iff] at stops
    exact stops.1
  cases rest with
  | nil => simp [Numeral.starts, digitless]
  | cons d ds => rfl

/-- A lexeme ends at a blank at the latest, unless it is a string without an end. -/
theorem lexemeAt_append {w : UInt8} (separating : isBlank w) {c : UInt8} {rest : Bytes}
    (more : Bytes) (ends : ∀ text, lexemeAt c rest ≠ .openString text) :
    lexemeAt c (rest ++ w :: more) = lexemeAt c rest := by
  by_cases isQuote : c = quote
  · subst isQuote
    have closed : quote ∈ rest := by
      by_contra isOpen
      exact ends _ (by rw [lexemeAt_quote, if_neg isOpen])
    obtain ⟨behind, split⟩ := takeWhile_append_of_quote_mem closed
    have text : (rest ++ w :: more).takeWhile (· != quote) = rest.takeWhile (· != quote) := by
      rw [← split, List.append_assoc, List.cons_append, takeWhile_append_of_stop (by simp),
        takeWhile_append_of_stop (by simp)]
    simp [lexemeAt_quote, closed, text]
  · have number := takeWhile_append_of_stop (not_continues_of_isBlank separating) rest more
    have symbol := takeWhile_append_of_stop (not_continuesSymbol_of_isBlank separating) rest more
    simp [lexemeAt_eq, isQuote, starts_append separating, number, symbol]

namespace Place

theorem advance_followedBy {p : Place} {count : Nat} (inside : count ≤ p.rest.length)
    (more : Bytes) : (p.followedBy more).advance count = (p.advance count).followedBy more := by
  simp only [advance, followedBy, List.drop_append_of_le_length inside]

theorem skipBlanks_followedBy {p : Place} (filled : p.skipBlanks.rest ≠ []) (more : Bytes) :
    (p.followedBy more).skipBlanks = p.skipBlanks.followedBy more := by
  have front : p.rest.takeWhile isBlank <+: p.rest := List.takeWhile_prefix isBlank
  have blanks : (p.rest ++ more).takeWhile isBlank = p.rest.takeWhile isBlank := by
    rw [List.takeWhile_append, if_neg]
    intro all
    apply filled
    rw [skipBlanks, rest_advance, all, List.drop_length]
  calc (p.followedBy more).skipBlanks
      = (p.followedBy more).advance (p.rest.takeWhile isBlank).length := by
        simp only [skipBlanks, followedBy, blanks]
    _ = p.skipBlanks.followedBy more := advance_followedBy front.length_le more

theorem token?_followedBy {w : UInt8} (separating : isBlank w) {p q : Place} {t : Token}
    (found : p.token? = some (t, q)) (ends : ∀ text, t.lexeme ≠ .openString text) (more : Bytes) :
    (p.followedBy (w :: more)).token? = some (t, q.followedBy (w :: more)) := by
  obtain ⟨c, r, next, rfl, rfl⟩ := token?_eq_some found
  obtain ⟨rest, pos⟩ := next?_eq_some next
  have inside := (lexemeAt_stands c r.rest).length_le
  rw [← rest] at inside
  have filled : p.skipBlanks.rest ≠ [] := by simp [rest]
  have next' : (p.skipBlanks.followedBy (w :: more)).next? = some (c, r.followedBy (w :: more)) := by
    simp [next?, followedBy, rest, ← pos]
  have lexeme : lexemeAt c (r.followedBy (w :: more)).rest = lexemeAt c r.rest :=
    lexemeAt_append separating more ends
  simp only [token?_eq, skipBlanks_followedBy filled, next', Option.map_some, lexeme,
    advance_followedBy inside]
  rfl

/-- Where no token is left, the next one is the first of what follows. -/
theorem token?_followedBy_of_none {p : Place} (ended : p.token? = none) (more : Bytes) :
    (p.followedBy more).token? = (⟨p.stop, more⟩ : Place).token? := by
  have last := next?_eq_none (token?_eq_none_iff.1 ended)
  rw [rest_skipBlanks, List.dropWhile_eq_nil_iff] at last
  have all : p.rest.takeWhile isBlank = p.rest := List.takeWhile_eq_self_iff.2 last
  have skipped : (p.followedBy more).skipBlanks = (⟨p.stop, more⟩ : Place).skipBlanks := by
    simp [skipBlanks, advance, followedBy, List.takeWhile_append, all, stop, Nat.add_assoc]
  rw [token?_eq, token?_eq, skipped]

theorem token?_cons_of_isBlank {w : UInt8} (separating : isBlank w) (pos : Nat) (rest : Bytes) :
    (⟨pos, w :: rest⟩ : Place).token? = (⟨pos + 1, rest⟩ : Place).token? := by
  have skipped : (⟨pos, w :: rest⟩ : Place).skipBlanks = (⟨pos + 1, rest⟩ : Place).skipBlanks := by
    simp only [skipBlanks, advance, List.takeWhile_cons_of_pos separating, List.length_cons,
      List.drop_succ_cons, mk.injEq, and_true]
    omega
  rw [token?_eq, token?_eq, skipped]

theorem skipList_followedBy (inString : Bool) (depth pos : Nat) (rest more : Bytes) :
    (skipList inString depth pos rest).rest = [] ∨
      skipList inString depth pos (rest ++ more) =
        (skipList inString depth pos rest).followedBy more := by
  fun_induction skipList inString depth pos rest <;> simp_all [skipList, followedBy]

end Place

theorem Reads.ends_of_whole {limit level : Nat} {p q behind : Place} {y : Yield} {t : Token}
    (reads : Reads limit .expr level p y q) (found : p.token? = some (t, behind))
    (whole : ∀ e ∈ y.errors, ¬ e.flaw.AtEnd) : ∀ text, t.lexeme ≠ .openString text := by
  obtain ⟨loc, lexeme⟩ := t
  rintro text rfl
  cases reads <;> simp_all [Flaw.AtEnd]

/-- A list that is open where the source ends is reported. -/
theorem Reads.atEnd_of_rest_nil {limit level loc : Nat} {before : Option (List Expr)}
    {p q : Place} {y : Yield} (reads : Reads limit (.items loc before) level p y q)
    (ended : p.rest = []) : ∃ e ∈ y.errors, e.flaw.AtEnd := by
  have none : p.token? = none := by simp [Place.token?, ended]
  cases reads <;> simp_all [Flaw.AtEnd]

/-- What is read without meeting the end of the source is read the same when the source goes on.
Only skipping a list that is nested too deeply can meet the end and not report it. -/
theorem Reads.followedBy {limit level : Nat} {aim : Aim} {p q : Place} {y : Yield}
    (reads : Reads limit aim level p y q) (whole : ∀ e ∈ y.errors, ¬ e.flaw.AtEnd) {w : UInt8}
    (separating : isBlank w) (more : Bytes) :
    Reads limit aim level (p.followedBy (w :: more)) y (q.followedBy (w :: more)) ∨
      aim = .expr ∧ limit ≤ level ∧ q.rest = [] := by
  have same {p q : Place} {t : Token} (found : p.token? = some (t, q))
      (ends : ∀ text, t.lexeme ≠ .openString text) :=
    Place.token?_followedBy separating found ends more
  induction reads with
  | string found => exact .inl (.string (same found nofun))
  | openString found => simp [Flaw.AtEnd] at whole
  | number found spelled => exact .inl (.number (same found nofun) spelled)
  | badNumber found spelled => exact .inl (.badNumber (same found nofun) spelled)
  | symbol found => exact .inl (.symbol (same found nofun))
  | strayClose found => exact .inl (.strayClose (same found nofun))
  | tooDeep found deep =>
    obtain atEnd | skipped := Place.skipList_followedBy false 0 _ _ (w :: more)
    · exact .inr ⟨rfl, deep, atEnd⟩
    · rw [← skipped]
      exact .inl (.tooDeep (same found nofun) deep)
  | list found room _ ih =>
    obtain inner | ⟨items, _⟩ := ih whole
    · exact .inl (.list (same found nofun) room inner)
    · contradiction
  | ended found => simp [Flaw.AtEnd] at whole
  | closed found => exact .inl (.closed (same found nofun))
  | item found unclosed readsFirst readsLater first later =>
    obtain ⟨wholeFirst, wholeLater⟩ := List.forall_mem_append.1 whole
    have ends := readsFirst.ends_of_whole found wholeFirst
    obtain readsLater' | ⟨items, _⟩ := later wholeLater
    · obtain readsFirst' | ⟨_, _, atEnd⟩ := first wholeFirst
      · exact .inl (.item (same found ends) unclosed readsFirst' readsLater')
      · -- then nothing is left to close the list
        obtain ⟨e, reported, late⟩ := readsLater.atEnd_of_rest_nil atEnd
        exact absurd late (wholeLater e reported)
    · contradiction

/-- Only the next token matters to what is read there. -/
theorem Reads.of_token? {limit level : Nat} {p p' q : Place} {y : Yield}
    (reads : Reads limit .expr level p y q) (same : p'.token? = p.token?) :
    Reads limit .expr level p' y q := by
  cases reads with
  | string found => exact .string (same.trans found)
  | openString found => exact .openString (same.trans found)
  | number found spelled => exact .number (same.trans found) spelled
  | badNumber found spelled => exact .badNumber (same.trans found) spelled
  | symbol found => exact .symbol (same.trans found)
  | strayClose found => exact .strayClose (same.trans found)
  | tooDeep found deep => exact .tooDeep (same.trans found) deep
  | list found room inner => exact .list (same.trans found) room inner

theorem ReadsForms.of_token? {limit : Nat} {p p' : Place} {forms : List Expr}
    {errors : List ParseError} {visits : List Visit}
    (reads : ReadsForms limit p forms errors visits) (same : p'.token? = p.token?) :
    ReadsForms limit p' forms errors visits := by
  cases reads with
  | ended found => exact .ended (same.trans found)
  | form found readsFirst readsLater =>
    exact .form (same.trans found) (readsFirst.of_token? same) readsLater

theorem ReadsForms.append {limit : Nat} (room : 0 < limit) {p : Place} {forms later : List Expr}
    {errors errors' : List ParseError} {visits visits' : List Visit}
    (reads : ReadsForms limit p forms errors visits) (whole : ∀ e ∈ errors, ¬ e.flaw.AtEnd)
    {w : UInt8} (separating : isBlank w) {more : Bytes}
    (readsLater : ReadsForms limit ⟨p.stop, w :: more⟩ later errors' visits') :
    ReadsForms limit (p.followedBy (w :: more)) (forms ++ later) (errors ++ errors')
      (visits ++ visits') := by
  induction reads with
  | ended found => exact readsLater.of_token? (Place.token?_followedBy_of_none found _)
  | form found readsFirst _ ih =>
    obtain ⟨wholeFirst, wholeLater⟩ := List.forall_mem_append.1 whole
    have ends := readsFirst.ends_of_whole found wholeFirst
    obtain readsFirst' | ⟨_, deep, _⟩ := readsFirst.followedBy wholeFirst separating more
    · rw [← readsFirst.stop] at readsLater
      simp only [List.append_assoc]
      exact .form (Place.token?_followedBy separating found ends more) readsFirst'
        (ih wholeLater readsLater)
    · omega

def Reading.shift (n : Nat) (r : Reading) : Reading :=
  ⟨r.forms.map (·.shift n), r.errors.map (·.shift n), r.visits.map (·.shift n)⟩

/-- One reading after the other. -/
instance : Append Reading where
  append r s := ⟨r.forms ++ s.forms, r.errors ++ s.errors, r.visits ++ s.visits⟩

@[simp] theorem Reading.errors_append (r s : Reading) : (r ++ s).errors = r.errors ++ s.errors :=
  rfl

@[simp] theorem Reading.forms_append (r s : Reading) : (r ++ s).forms = r.forms ++ s.forms := rfl

theorem read_eq_of_readsForms {source : Bytes} {forms : List Expr} {errors : List ParseError}
    {visits : List Visit} (reads : ReadsForms maxDepth (.start source) forms errors visits) :
    read source = ⟨forms, errors, visits⟩ := by
  obtain ⟨rfl, rfl, rfl⟩ := reads.unique (readsForms_read source)
  rfl

/-- Reading a joined source is reading both parts. -/
theorem read_append {a : Bytes} (whole : ∀ e ∈ (read a).errors, ¬ e.flaw.AtEnd) {w : UInt8}
    (separating : isBlank w) (b : Bytes) :
    read (a ++ w :: b) = read a ++ (read b).shift (a.length + 1) := by
  have moved := (readsForms_read b).shift (a.length + 1)
  have behind : (⟨(Place.start a).stop, w :: b⟩ : Place).token? =
      ((Place.start b).shift (a.length + 1)).token? := by
    rw [Place.token?_cons_of_isBlank separating]
    simp only [Place.stop, Place.start, Place.shift, Nat.zero_add]
  exact read_eq_of_readsForms
    ((readsForms_read a).append (by decide) whole separating (moved.of_token? behind))

theorem program_append {a b : Bytes} {first later : List Expr}
    (accepted : (read a).program = .ok first) {w : UInt8} (separating : isBlank w)
    (accepted' : (read b).program = .ok later) :
    (read (a ++ w :: b)).program = .ok (first ++ later.map (·.shift (a.length + 1))) := by
  obtain ⟨clean, rfl⟩ := program_eq_ok.1 accepted
  obtain ⟨clean', rfl⟩ := program_eq_ok.1 accepted'
  rw [program_eq_ok, read_append (by simp [clean]) separating]
  simp [Reading.shift, clean, clean']

/-- If nothing is left open at the end of a source, then joining another one to it at a blank joins
their errors, and the programs if there are no errors, with everything in the second source located
behind the first one and the blank. -/
theorem read_joined_at_blank (a b : Bytes) (w : UInt8) (separating : w ∈ separators)
    (closed : ∀ e ∈ (read a).errors, e.flaw.message ≠ bytes "Unterminated string literal" ∧
      e.flaw.message ≠ bytes "Unexpected end of input - missing closing parenthesis") :
    (read (a ++ w :: b)).errors =
      (read a).errors ++ (read b).errors.map (fun e => { e with loc := e.loc + (a.length + 1) }) ∧
    ∀ first later, (read a).program = .ok first → (read b).program = .ok later →
      (read (a ++ w :: b)).program =
        .ok (first ++ later.map (Expr.relocate fun loc => loc + (a.length + 1))) := by
  have whole : ∀ e ∈ (read a).errors, ¬ e.flaw.AtEnd := by
    intro e reported late
    obtain ⟨strings, lists⟩ := closed e reported
    cases flaw : e.flaw <;> simp_all [Flaw.AtEnd, Flaw.message]
  have blank : isBlank w := isBlank_iff.2 separating
  refine ⟨?_, fun first later accepted accepted' => ?_⟩
  · rw [read_append whole blank]
    rfl
  · exact program_append accepted blank accepted'

/-- A stray parenthesis and a bad number do not keep the next source from being read. -/
theorem read_joined_at_blank_recovered :
    let a := bytes ") 1.2.3"
    let b := bytes "(x"
    (read a).errors = [⟨.strayClose, 0⟩, ⟨.badNumber (bytes "1.2.3"), 2⟩] ∧
      (read b).errors = [⟨.unclosedList, 0⟩] ∧
      (read (a ++ tab :: b)).errors =
        [⟨.strayClose, 0⟩, ⟨.badNumber (bytes "1.2.3"), 2⟩, ⟨.unclosedList, 8⟩] := by
  intro a b
  have first : (read a).errors = [⟨.strayClose, 0⟩, ⟨.badNumber (bytes "1.2.3"), 2⟩] := by
    decide +kernel
  have second : (read b).errors = [⟨.unclosedList, 0⟩] := by decide +kernel
  have joined := (read_joined_at_blank a b tab (by decide) (by rw [first]; decide)).1
  rw [first, second] at joined
  exact ⟨first, second, joined⟩

end Sketch
