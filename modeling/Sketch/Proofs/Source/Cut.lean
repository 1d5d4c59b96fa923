import Sketch.Proofs.Source.Resumption
import Sketch.Proofs.Source.Spans
import Sketch.Proofs.Source.Trees

/-! Expressions cut out of their source. What is read at a place depends neither on what stands behind
it nor on the lists around it, so every node is read again from its own bytes alone. The spans of the
nodes nest as the nodes do, and all that is left of the source is blanks and parentheses. -/
namespace Sketch

theorem takeWhile_take_of_le {p : UInt8 → Bool} {rest : Bytes} {count : Nat}
    (whole : (rest.takeWhile p).length ≤ count) :
    (rest.take count).takeWhile p = rest.takeWhile p := by
  rw [← List.take_takeWhile, List.take_of_length_le whole]

/-- The digit that makes a minus sign start a number belongs to the number. -/
theorem starts_take {c : UInt8} {rest : Bytes} {count : Nat}
    (whole : Numeral.starts c rest → (rest.takeWhile Numeral.continues).length ≤ count) :
    Numeral.starts c (rest.take count) = Numeral.starts c rest := by
  cases rest with
  | nil => rw [List.take_nil]
  | cons d ds =>
    cases count with
    | succ count => rfl
    | zero =>
      by_cases digit : isDigit d
      · have ends : ¬ Numeral.starts c (d :: ds) := by
          intro starts
          simpa [Numeral.continues, digit] using whole starts
        have solid : isDigit c = false ∧ c ≠ minus := by simpa [Numeral.starts, digit] using ends
        simp [Numeral.starts, solid]
      · simp [Numeral.starts, digit]

/-- No lexeme depends on what stands behind it. -/
theorem lexemeAt_take {c : UInt8} {rest : Bytes} {count : Nat}
    (whole : (lexemeAt c rest).bytes.length ≤ count + 1) :
    lexemeAt c (rest.take count) = lexemeAt c rest := by
  by_cases isQuote : c = quote
  · subst isQuote
    rw [lexemeAt_quote] at whole
    rw [lexemeAt_quote, lexemeAt_quote]
    by_cases closed : quote ∈ rest
    · rw [if_pos closed] at whole
      have text : (rest.takeWhile (· != quote)).length + 1 ≤ count := by
        simpa [Lexeme.bytes] using whole
      obtain ⟨behind, split⟩ := takeWhile_append_of_quote_mem closed
      have kept : quote ∈ rest.take count := by
        generalize rest.takeWhile (· != quote) = front at split text
        obtain ⟨more, room⟩ : ∃ more, count - front.length = more + 1 := Nat.exists_eq_add_one.2 (by omega)
        rw [← split, List.take_append, room, List.take_succ_cons]
        simp
      rw [if_pos closed, if_pos kept, takeWhile_take_of_le (by omega)]
    · rw [if_neg closed, takeWhile_of_quote_not_mem closed] at whole
      rw [List.take_of_length_le (by simpa [Lexeme.bytes] using whole)]
  · by_cases opens : c = lparen
    · simp [lexemeAt_eq, opens]
    by_cases closes : c = rparen
    · simp [lexemeAt_eq, closes]
    by_cases starts : Numeral.starts c rest
    · have token : (rest.takeWhile Numeral.continues).length ≤ count := by
        simpa [lexemeAt_eq, isQuote, opens, closes, starts, Lexeme.bytes] using whole
      simp [lexemeAt_eq, isQuote, opens, closes, starts, starts_take fun _ => token,
        takeWhile_take_of_le token]
    · have name : (rest.takeWhile continuesSymbol).length ≤ count := by
        simpa [lexemeAt_eq, isQuote, opens, closes, starts, Lexeme.bytes] using whole
      simp [lexemeAt_eq, isQuote, opens, closes, starts_take fun begins => absurd begins starts, starts,
        takeWhile_take_of_le name]

namespace Place

/-- A place of a source that ends at `stop`. -/
def upTo (p : Place) (stop : Nat) : Place := { p with rest := p.rest.take (stop - p.pos) }

theorem advance_upTo (p : Place) (stop count : Nat) :
    (p.upTo stop).advance count = (p.advance count).upTo stop := by
  simp only [advance, upTo, List.drop_take, Nat.sub_sub]

theorem skipBlanks_upTo {p : Place} {stop : Nat} (inside : p.skipBlanks.pos ≤ stop) :
    (p.upTo stop).skipBlanks = p.skipBlanks.upTo stop := by
  simp only [skipBlanks, pos_advance] at inside
  have blanks : (p.upTo stop).rest.takeWhile isBlank = p.rest.takeWhile isBlank :=
    takeWhile_take_of_le (by omega)
  rw [skipBlanks, blanks, advance_upTo]
  rfl

theorem next?_upTo {p q : Place} {c : UInt8} {stop : Nat} (found : p.next? = some (c, q))
    (inside : p.pos < stop) : (p.upTo stop).next? = some (c, q.upTo stop) := by
  obtain ⟨rest, pos⟩ := next?_eq_some found
  have room : stop - p.pos = stop - q.pos + 1 := by omega
  have ahead : (p.upTo stop).rest = c :: (q.upTo stop).rest := by
    simp only [upTo, rest, room, List.take_succ_cons]
  simp only [next?, ahead, Option.some.injEq, Prod.mk.injEq, true_and]
  simp only [upTo, pos]

/-- A token is found the same where the source ends behind it. -/
theorem token?_upTo {p q : Place} {t : Token} {stop : Nat} (found : p.token? = some (t, q))
    (inside : q.pos ≤ stop) : (p.upTo stop).token? = some (t, q.upTo stop) := by
  obtain ⟨c, r, next, rfl, rfl⟩ := token?_eq_some found
  have positive := length_lexemeAt_pos c r.rest
  have pos := (next?_eq_some next).2
  simp only [pos_advance] at inside
  have skipped : (p.upTo stop).skipBlanks = p.skipBlanks.upTo stop := skipBlanks_upTo (by omega)
  have next' : (p.skipBlanks.upTo stop).next? = some (c, r.upTo stop) :=
    next?_upTo next (by omega)
  have lexeme : lexemeAt c (r.upTo stop).rest = lexemeAt c r.rest := lexemeAt_take (by omega)
  simp only [token?_eq, skipped, next', Option.map_some, lexeme, advance_upTo]
  rfl

end Place

theorem Reads.exists_token {limit level : Nat} {p q : Place} {y : Yield}
    (reads : Reads limit .expr level p y q) : ∃ token, p.token? = some token := by
  cases reads with
  | string found | openString found | number found _ | badNumber found _ | symbol found
  | strayClose found | tooDeep found _ | list found _ _ => exact ⟨_, found⟩

theorem Reads.token_inside {limit level : Nat} {p q behind : Place} {y : Yield} {t : Token}
    (reads : Reads limit .expr level p y q) (clean : y.errors = [])
    (found : p.token? = some (t, behind)) : behind.pos ≤ q.pos := by
  cases reads with
  | list found' _ items =>
    rw [found] at found'
    cases found'
    exact items.pos_le
  | openString | badNumber | strayClose | tooDeep => contradiction
  | string found' | number found' _ | symbol found' =>
    rw [found] at found'
    cases found'
    exact Nat.le_refl _

/-- What is read without an error is read the same where the source ends behind it. -/
theorem Reads.upTo {limit level : Nat} {aim : Aim} {p q : Place} {y : Yield}
    (reads : Reads limit aim level p y q) (clean : y.errors = []) {stop : Nat}
    (inside : q.pos ≤ stop) : Reads limit aim level (p.upTo stop) y (q.upTo stop) := by
  induction reads with
  | string found => exact .string (Place.token?_upTo found inside)
  | number found spelled => exact .number (Place.token?_upTo found inside) spelled
  | symbol found => exact .symbol (Place.token?_upTo found inside)
  | openString | badNumber | strayClose | tooDeep | ended => contradiction
  | list found room items ih =>
    exact .list (Place.token?_upTo found (items.pos_le.trans inside)) room (ih clean inside)
  | closed found => exact .closed (Place.token?_upTo found inside)
  | item found unclosed readsFirst readsLater first later =>
    obtain ⟨cleanFirst, cleanLater⟩ := List.append_eq_nil_iff.1 clean
    have front := readsLater.pos_le.trans inside
    have token := (readsFirst.token_inside cleanFirst found).trans front
    exact .item (Place.token?_upTo found token) unclosed (first cleanFirst front)
      (later cleanLater inside)

/-- What is read without an error is read the same inside fewer lists. -/
theorem Reads.outside {limit level : Nat} {aim : Aim} {p q : Place} {y : Yield}
    (reads : Reads limit aim level p y q) (clean : y.errors = []) {outer : Nat}
    (fewer : outer ≤ level) : ∃ visits, Reads limit aim outer p ⟨y.result, [], visits⟩ q := by
  induction reads generalizing outer with
  | string found => exact ⟨_, .string found⟩
  | number found spelled => exact ⟨_, .number found spelled⟩
  | symbol found => exact ⟨_, .symbol found⟩
  | openString | badNumber | strayClose | tooDeep | ended => contradiction
  | list found room _ ih =>
    obtain ⟨visits, items⟩ := ih clean fewer
    exact ⟨_, .list found (fewer.trans_lt room) items⟩
  | closed found => exact ⟨_, .closed found⟩
  | item found unclosed _ _ first later =>
    obtain ⟨cleanFirst, cleanLater⟩ := List.append_eq_nil_iff.1 clean
    obtain ⟨_, readsFirst⟩ := first cleanFirst (Nat.succ_le_succ fewer)
    obtain ⟨_, readsLater⟩ := later cleanLater fewer
    exact ⟨_, .item found unclosed readsFirst readsLater⟩

/-- The bytes of a source in a span. -/
def Span.cut (s : Span) (source : Bytes) : Bytes := (source.take s.stop).drop s.start

namespace Place

theorem skipBlanks_skipBlanks (p : Place) : p.skipBlanks.skipBlanks = p.skipBlanks := by
  have none : p.skipBlanks.rest.takeWhile isBlank = [] := by
    rw [rest_skipBlanks]
    exact List.takeWhile_eq_nil_iff.2 (List.dropWhile_get_zero_not _ _)
  rw [skipBlanks, none]
  rfl

theorem token?_skipBlanks (p : Place) : p.skipBlanks.token? = p.token? := by
  rw [token?_eq, token?_eq, skipBlanks_skipBlanks]

theorem Within.of_token? {source : Bytes} {p q : Place} {t : Token} (within : p.Within source)
    (found : p.token? = some (t, q)) : q.Within source := by
  obtain ⟨c, r, -, -, rfl⟩ := token?_eq_some found
  exact (within.advance _).advance _

theorem within_skipList {source : Bytes} {inString : Bool} {depth pos : Nat} {rest : Bytes}
    (within : (⟨pos, rest⟩ : Place).Within source) :
    (skipList inString depth pos rest).Within source := by
  fun_induction skipList inString depth pos rest
  case case1 => exact within
  case case5 => exact within.advance 1
  case case2 ih | case3 ih | case4 ih | case6 ih | case7 ih => exact ih (within.advance 1)

end Place

theorem Reads.within {limit level : Nat} {aim : Aim} {p q : Place} {y : Yield} {source : Bytes}
    (reads : Reads limit aim level p y q) (within : p.Within source) : q.Within source := by
  induction reads with
  | string found | openString found | number found _ | badNumber found _ | symbol found
  | strayClose found | closed found => exact within.of_token? found
  | tooDeep found _ => exact Place.within_skipList (within.of_token? found)
  | list found _ _ ih => exact ih (within.of_token? found)
  | ended => exact within.advance _
  | item _ _ _ _ first later => exact later (first within)

theorem Expr.shift_back (n : Nat) (e : Expr) : (e.shift n).relocate (· - n) = e := by
  have same : ((· - (n : Int)) ∘ (· + (n : Int))) = id := funext fun loc => Int.add_sub_cancel loc n
  rw [shift, relocate_relocate, same, relocate_id]

/-- What is read as an expression is all that is read of its own bytes. -/
theorem Reads.read_cut {level : Nat} {p q : Place} {y : Yield} {e : Expr} {source : Bytes}
    (reads : Reads maxDepth .expr level p y q) (within : p.Within source)
    (whole : y.result = some e) :
    (read (Span.cut ⟨p.skipBlanks.pos, q.pos⟩ source)).program =
      .ok [e.relocate (· - (p.skipBlanks.pos : Int))] := by
  generalize start : p.skipBlanks.pos = n
  generalize taken : Span.cut ⟨n, q.pos⟩ source = own
  have here : p.skipBlanks.upTo q.pos = (Place.start own).shift n := by
    have ahead : p.skipBlanks.rest = source.drop n := start ▸ within.advance _
    simp [← taken, Place.upTo, Place.shift, Place.start, Span.cut, start, ahead, List.drop_take]
  have ended : (q.upTo q.pos).token? = none := by
    rw [Place.token?_eq_none_iff]
    simp [Place.upTo, Place.skipBlanks, Place.next?]
  obtain ⟨visits, outside⟩ := reads.outside (reads.errors_eq_nil whole) (Nat.zero_le level)
  have alone := (outside.of_token? p.token?_skipBlanks).upTo rfl (Nat.le_refl q.pos)
  rw [whole, here] at alone
  obtain ⟨_, found⟩ := alone.exists_token
  obtain ⟨forms, errors, -⟩ :=
    ((readsForms_read own).shift n).unique (.form found alone (.ended ended))
  refine program_eq_ok.2 ⟨List.map_eq_nil_iff.1 errors, ?_⟩
  have back : ((read own).forms.map (·.shift n)).map (Expr.relocate (· - (n : Int))) =
      (read own).forms := by simp [Function.comp_def, Expr.shift_back]
  rw [← back, forms]
  rfl

/-- Where the expression ends that starts at a place: a list behind its closing parenthesis, and
anything else behind its token. -/
def Place.behind (p : Place) : Place :=
  match p.token? with
  | none => p.skipBlanks
  | some (⟨_, .opening⟩, q) => skipList false 0 q.pos q.rest
  | some (_, q) => q

/-- The span of an expression that was read from a source. -/
def spanOf (source : Bytes) (e : Expr) : Span :=
  ⟨e.loc.toNat, ((Place.start source).advance e.loc.toNat).behind.pos⟩

theorem Reads.eq_behind {limit level : Nat} {p q : Place} {y : Yield}
    (reads : Reads limit .expr level p y q) : q = p.behind := by
  unfold Place.behind
  cases reads with
  | string found | openString found | number found _ | badNumber found _ | symbol found
  | strayClose found | tooDeep found _ => rw [found]
  | list found _ items =>
    rw [found]
    exact items.passes.symm

theorem Place.behind_skipBlanks (p : Place) : p.skipBlanks.behind = p.behind := by
  rw [behind, behind, token?_skipBlanks, skipBlanks_skipBlanks]

theorem Place.Within.eq_advance {source : Bytes} {p : Place} (within : p.Within source) :
    p = (Place.start source).advance p.pos := by
  obtain ⟨pos, rest⟩ := p
  simpa [Place.advance, Place.start, Place.Within] using within

theorem Place.loc_of_token? {p q : Place} {t : Token} (found : p.token? = some (t, q)) :
    t.loc = p.skipBlanks.pos := by
  obtain ⟨c, r, -, rfl, -⟩ := token?_eq_some found
  rfl

theorem Reads.loc_eq {limit level : Nat} {p q : Place} {y : Yield} {e : Expr}
    (reads : Reads limit .expr level p y q) (whole : y.result = some e) :
    e.loc = p.skipBlanks.pos := by
  cases reads with
  | string found | number found _ | symbol found =>
    cases whole
    exact congrArg Int.ofNat (Place.loc_of_token? found)
  | openString | badNumber | strayClose | tooDeep => contradiction
  | list found _ items =>
    obtain ⟨_, -, _, _, _, _, -, -, -, rfl⟩ := items.spelled whole
    exact congrArg Int.ofNat (Place.loc_of_token? found)

theorem Reads.spanOf_eq {limit level : Nat} {p q : Place} {y : Yield} {e : Expr} {source : Bytes}
    (reads : Reads limit .expr level p y q) (within : p.Within source)
    (whole : y.result = some e) : spanOf source e = ⟨p.skipBlanks.pos, q.pos⟩ := by
  have here : p.skipBlanks = (Place.start source).advance p.skipBlanks.pos :=
    Place.Within.eq_advance (within.advance _)
  rw [spanOf, reads.loc_eq whole, Int.toNat_natCast, ← here, Place.behind_skipBlanks,
    ← reads.eq_behind]

namespace Span

/-- There are only blanks in the span. -/
def Blank (source : Bytes) (s : Span) : Prop :=
  ∀ (i : Nat) (c : UInt8), source[i]? = some c → s.Holds i → c ∈ separators

/-- In `outer` the spans `inner` follow one another, and there is nothing else but blanks. -/
structure FilledBy (source : Bytes) (outer : Span) (inner : List Span) : Prop where
  inside : ∀ s ∈ inner, outer.start ≤ s.start ∧ s.start < s.stop ∧ s.stop ≤ outer.stop
  apart : inner.Pairwise fun a b => a.stop ≤ b.start
  blank : ∀ (i : Nat) (c : UInt8), source[i]? = some c → outer.Holds i →
    (∀ s ∈ inner, ¬ s.Holds i) → c ∈ separators

/-- A list takes up its parentheses and what is between them. -/
structure Parenthesizes (source : Bytes) (outer : Span) (inner : List Span) : Prop where
  room : outer.start + 1 < outer.stop
  opening : source[outer.start]? = some lparen
  closing : source[outer.stop - 1]? = some rparen
  between : FilledBy source ⟨outer.start + 1, outer.stop - 1⟩ inner

namespace FilledBy

theorem nil {source : Bytes} {outer : Span} (blank : outer.Blank source) :
    FilledBy source outer [] :=
  ⟨by simp, .nil, fun i c found holds _ => blank i c found holds⟩

theorem cons {source : Bytes} {start stop : Nat} {first : Span} {rest : List Span}
    (before : start ≤ first.start) (filled : first.start < first.stop) (within : first.stop ≤ stop)
    (blank : Span.Blank source ⟨start, first.start⟩)
    (later : FilledBy source ⟨first.stop, stop⟩ rest) :
    FilledBy source ⟨start, stop⟩ (first :: rest) := by
  refine ⟨List.forall_mem_cons.2 ⟨⟨before, filled, within⟩, fun s member => ?_⟩,
    .cons (fun s member => (later.inside s member).1) later.apart, fun i c found holds free => ?_⟩
  · obtain ⟨behind, some, upper⟩ := later.inside s member
    exact ⟨before.trans (filled.le.trans behind), some, upper⟩
  · obtain ⟨notFirst, notLater⟩ := List.forall_mem_cons.1 free
    by_cases front : (i : Int) < first.start
    · exact blank i c found ⟨holds.1, front⟩
    · have behind : (first.stop : Int) ≤ i := by
        simp only [Holds] at notFirst
        omega
      exact later.blank i c found ⟨behind, holds.2⟩ notLater

end FilledBy

end Span

namespace Place

theorem Within.blank_skipped {source : Bytes} {p : Place} (within : p.Within source) :
    Span.Blank source ⟨p.pos, p.skipBlanks.pos⟩ := by
  intro i c found holds
  obtain ⟨k, rfl⟩ := Nat.exists_eq_add_of_le (Int.ofNat_le.1 holds.1)
  have skipped : k < (p.rest.takeWhile isBlank).length := by
    have upper := Int.ofNat_lt.1 holds.2
    simpa [skipBlanks] using upper
  have ahead : p.rest[k]? = some c := by rw [within, List.getElem?_drop, found]
  have same := List.prefix_iff_getElem?.1 (List.takeWhile_prefix isBlank) k skipped
  rw [ahead, Option.some.injEq] at same
  exact same ▸ isBlank_iff.1 (List.mem_takeWhile_imp (List.getElem_mem skipped))

theorem Within.stands {source : Bytes} {p q : Place} {t : Token} (within : p.Within source)
    (found : p.token? = some (t, q)) : t.lexeme.bytes <+: source.drop t.loc :=
  lexeme_prefix_of_mem_tokens within (tokens_of_some found ▸ List.mem_cons_self)

/-- A parenthesis is a token of one byte. -/
theorem Within.byte_of_token? {source : Bytes} {p q : Place} {t : Token} {c : UInt8}
    (within : p.Within source) (found : p.token? = some (t, q)) (single : t.lexeme.bytes = [c]) :
    source[p.skipBlanks.pos]? = some c ∧ q.pos = p.skipBlanks.pos + 1 := by
  have stands := within.stands found
  obtain ⟨-, -, stop⟩ := token?_bounds found
  rw [single, loc_of_token? found] at stands
  rw [Token.stop, single, loc_of_token? found] at stop
  obtain ⟨behind, split⟩ := stands
  refine ⟨?_, stop.symm⟩
  rw [← Nat.add_zero p.skipBlanks.pos, ← List.getElem?_drop, ← split]
  rfl

end Place

/-- The span of what is read first, with the blanks before it, fills the room before the others. -/
theorem Reads.filled_cons {limit level : Nat} {p q : Place} {y : Yield} {e : Expr} {source : Bytes}
    (reads : Reads limit .expr level p y q) (within : p.Within source) (whole : y.result = some e)
    {stop : Nat} {rest : List Span} (inside : q.pos ≤ stop)
    (later : Span.FilledBy source ⟨q.pos, stop⟩ rest) :
    Span.FilledBy source ⟨p.pos, stop⟩ (spanOf source e :: rest) := by
  obtain ⟨⟨t, behind⟩, found⟩ := reads.exists_token
  have token := reads.token_inside (reads.errors_eq_nil whole) found
  obtain ⟨before, some, ends⟩ := Place.token?_bounds found
  rw [Place.loc_of_token? found] at before some
  rw [reads.spanOf_eq within whole]
  exact .cons before (some.trans_le (ends.le.trans token)) inside within.blank_skipped later

/-- How the elements that are still to be read for an aim stand in the source. -/
def Aim.Fills (source : Bytes) : Aim → Place → Expr → Place → Prop
  | .expr, _, _, _ => True
  | .items loc before, p, e, q => ∃ newest elements stop, before = some newest ∧
      e = .list loc (newest.reverse ++ elements) ∧ p.pos ≤ stop ∧ q.pos = stop + 1 ∧
      source[stop]? = some rparen ∧
      Span.FilledBy source ⟨p.pos, stop⟩ (elements.map (spanOf source))

theorem Reads.fills {limit level : Nat} {aim : Aim} {p q : Place} {y : Yield} {e : Expr}
    {source : Bytes} (reads : Reads limit aim level p y q) (within : p.Within source)
    (whole : y.result = some e) : aim.Fills source p e q := by
  induction reads generalizing e with
  | string | openString | number | badNumber | symbol | strayClose | tooDeep | list => trivial
  | ended => contradiction
  | closed found =>
    obtain ⟨newest, rfl, rfl⟩ := Option.map_eq_some_iff.1 whole
    obtain ⟨closing, behind⟩ := within.byte_of_token? found rfl
    exact ⟨newest, [], _, rfl, by simp, Nat.le_add_right _ _, behind, closing,
      .nil within.blank_skipped⟩
  | item _ _ readsFirst _ _ later =>
    obtain ⟨_, elements, stop, added, rfl, nonempty, behind, closing, filled⟩ :=
      later (readsFirst.within within) whole
    obtain ⟨older, element, rfl, rfl, rfl⟩ := addItem_eq_some added
    exact ⟨older, element :: elements, stop, rfl, by simp, readsFirst.pos_le.trans nonempty,
      behind, closing, readsFirst.filled_cons within rfl nonempty filled⟩

/-- The bytes of a node, read by themselves, are the node moved to the start; those of a list are its
parentheses, what its elements take up, and blanks. -/
structure CutOut (source : Bytes) (node : Expr) : Prop where
  start : node.loc = (spanOf source node).start
  stop : (spanOf source node).stop ≤ source.length
  alone : (read ((spanOf source node).cut source)).program =
    .ok [node.relocate (· - node.loc)]
  list : ∀ loc elements, node = .list loc elements →
    (spanOf source node).Parenthesizes source (elements.map (spanOf source))

theorem Place.Within.stop_eq {source : Bytes} {p q : Place} {t : Token} (within : p.Within source)
    (found : p.token? = some (t, q)) : p.stop = source.length := by
  obtain ⟨c, r, next, -, -⟩ := token?_eq_some found
  have ahead : p.skipBlanks.rest = source.drop p.skipBlanks.pos := within.advance _
  have some : p.skipBlanks.rest ≠ [] := by simp [(next?_eq_some next).1]
  rw [ahead, ne_eq, List.drop_eq_nil_iff] at some
  rw [← stop_skipBlanks, stop, ahead, List.length_drop]
  omega

theorem Reads.cutOut {level : Nat} {p q : Place} {y : Yield} {e : Expr} {source : Bytes}
    (reads : Reads maxDepth .expr level p y q) (within : p.Within source)
    (whole : y.result = some e) : CutOut source e := by
  have span := reads.spanOf_eq within whole
  have loc := reads.loc_eq whole
  refine ⟨?_, ?_, ?_, ?_⟩
  · rw [span, loc]
  · obtain ⟨_, found⟩ := reads.exists_token
    rw [span, ← within.stop_eq found, ← reads.stop]
    exact Nat.le_add_right _ _
  · rw [span, loc]
    exact reads.read_cut within whole
  · rintro _ elements rfl
    rw [span]
    cases reads with
    | list found _ items =>
      obtain ⟨opening, behind⟩ := within.byte_of_token? found rfl
      obtain ⟨_, _, stop, empty, same, nonempty, closed, closing, filled⟩ :=
        items.fills (within.of_token? found) whole
      cases empty
      cases same
      rw [behind] at nonempty filled
      rw [closed]
      exact ⟨Nat.lt_succ_of_le nonempty, opening, closing, filled⟩
    | _ => cases whole

section

variable {source : Bytes} {limit : Nat} {P : Expr → Prop}
  (each : ∀ {level p q y e}, Reads limit .expr level p y q → p.Within source →
    y.result = some e → P e)
include each

/-- What holds of all that is read as an expression holds of everything inside it. -/
theorem Reads.inside_have {level : Nat} {aim : Aim} {p q : Place} {y : Yield} {e : Expr}
    (reads : Reads limit aim level p y q) (within : p.Within source)
    (before : aim.Each fun e => ∀ node ∈ e.nodes, P node) (whole : y.result = some e) :
    ∀ node ∈ e.inside, P node := by
  induction reads generalizing e with
  | string | number | symbol =>
    cases whole
    nofun
  | openString | badNumber | strayClose | tooDeep | ended => contradiction
  | list found _ _ ih =>
    refine ih (within.of_token? found) (fun items same => ?_) whole
    cases same
    nofun
  | closed =>
    obtain ⟨items, rfl, rfl⟩ := Option.map_eq_some_iff.1 whole
    intro node member
    obtain ⟨element, among, inner⟩ := Expr.mem_insideAll.1 member
    exact before items rfl element (List.mem_reverse.1 among) node inner
  | item _ _ readsFirst _ first later =>
    refine later (readsFirst.within within) (fun newest added => ?_) whole
    obtain ⟨older, element, rfl, rfl, rfl⟩ := addItem_eq_some added
    refine List.forall_mem_cons.2 ⟨List.forall_mem_cons.2 ⟨?_, ?_⟩, before older rfl⟩
    · exact each readsFirst within rfl
    · exact first within trivial rfl

theorem ReadsForms.nodes_have {p : Place} {forms : List Expr} {errors : List ParseError}
    {visits : List Visit} (reads : ReadsForms limit p forms errors visits)
    (within : p.Within source) : ∀ node ∈ Expr.insideAll forms, P node := by
  induction reads with
  | ended => nofun
  | form _ readsFirst _ ih =>
    intro node member
    obtain ⟨e, among, inner⟩ := Expr.mem_insideAll.1 member
    rcases List.mem_append.1 among with first | later
    · have whole := Option.mem_toList.1 first
      rcases List.mem_cons.1 inner with rfl | inner
      · exact each readsFirst within whole
      · exact readsFirst.inside_have each within trivial whole node inner
    · exact ih (readsFirst.within within) node (Expr.mem_insideAll.2 ⟨e, later, inner⟩)

end

theorem ReadsForms.filled {limit : Nat} {p : Place} {forms : List Expr} {errors : List ParseError}
    {visits : List Visit} {source : Bytes} (reads : ReadsForms limit p forms errors visits)
    (within : p.Within source) (clean : errors = []) (sized : p.stop = source.length) :
    Span.FilledBy source ⟨p.pos, source.length⟩ (forms.map (spanOf source)) := by
  induction reads with
  | @ended p found =>
    have last := Place.next?_eq_none (Place.token?_eq_none_iff.1 found)
    have stop := p.stop_skipBlanks
    rw [Place.stop, last, sized] at stop
    have blank := within.blank_skipped
    rw [show p.skipBlanks.pos = source.length from stop] at blank
    exact .nil blank
  | form _ readsFirst _ ih =>
    obtain ⟨cleanFirst, cleanLater⟩ := List.append_eq_nil_iff.1 clean
    obtain ⟨e, whole⟩ := readsFirst.exists_result cleanFirst
    have sizedLater := readsFirst.stop.trans sized
    have inside := (Nat.le_add_right _ _).trans_eq sizedLater
    have filled := ih (readsFirst.within within) cleanLater sizedLater
    simp only at whole
    rw [whole]
    exact readsFirst.filled_cons within whole inside filled

/-- Every node of a program has a span in the source, and those bytes alone are read as that node and
nothing else, located as far from their start as it is from its own. The spans of the expressions
outside every list stand in the source one behind the other, and those of the elements of a list
between its parentheses; around them are only blanks. -/
theorem nodes_cut_out_of_source {source : Bytes} {program : List Expr}
    (accepted : (read source).program = .ok program) :
    Span.FilledBy source ⟨0, source.length⟩ (program.map (spanOf source)) ∧
    ∀ node ∈ Expr.insideAll program, CutOut source node := by
  obtain ⟨clean, rfl⟩ := program_eq_ok.1 accepted
  have reads := readsForms_read source
  have within := Place.Within.start source
  exact ⟨reads.filled within clean (Nat.zero_add _),
    reads.nodes_have (fun reads within whole => reads.cutOut within whole) within⟩

/-- Nothing separates the number from the list behind it, nor what is in the inner list, and one of
the parentheses stands in a string. -/
theorem nodes_cut_out_of_source_adjacent :
    let source := bytes "12(x(\"a)\"-1))"
    let inner (start : Int) := Expr.list start [.string (start + 1) (bytes "a)"),
      .number (start + 5) (⟨true, bytes "1", []⟩ : Numeral).value]
    let program := [.number 0 (⟨false, bytes "12", []⟩ : Numeral).value,
      .list 2 [.symbol 3 (bytes "x"), inner 4]]
    (read source).program = .ok program ∧
    Span.FilledBy source ⟨0, 13⟩ [⟨0, 2⟩, ⟨2, 13⟩] ∧
    Span.Parenthesizes source ⟨4, 12⟩ [⟨5, 9⟩, ⟨9, 11⟩] ∧
    (read (bytes "(\"a)\"-1)")).program = .ok [inner 0] := by
  intro source inner program
  have accepted : (read source).program = .ok program := by
    have list : Reads maxDepth .expr 1 ⟨4, bytes "(\"a)\"-1))"⟩ _ ⟨12, bytes ")"⟩ :=
      .list rfl (by decide) (.item rfl nofun (.string rfl) (.item rfl nofun (.number rfl rfl)
        (.closed rfl)))
    have outer : Reads maxDepth .expr 0 ⟨2, bytes "(x(\"a)\"-1))"⟩ _ ⟨13, []⟩ :=
      .list rfl (by decide) (.item rfl nofun (.symbol rfl) (.item rfl nofun list (.closed rfl)))
    have number : Reads maxDepth .expr 0 (.start source) _ ⟨2, bytes "(x(\"a)\"-1))"⟩ :=
      .number rfl rfl
    rw [read_eq_of_readsForms (.form rfl number (.form rfl outer (.ended rfl)))]
    rfl
  obtain ⟨filled, nodes⟩ := nodes_cut_out_of_source accepted
  have among : inner 4 ∈ Expr.insideAll program := by simp [program, Expr.insideAll, Expr.inside]
  have cut := nodes _ among
  exact ⟨accepted, filled, cut.list _ _ rfl, cut.alone⟩

end Sketch
