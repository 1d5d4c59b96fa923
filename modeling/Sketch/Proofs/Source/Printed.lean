import Sketch.Proofs.Source.Joined
import Sketch.Proofs.Source.Trees

/-! Printing and reading. Whatever can stand in a source is read back from its own text: what the
text of a tree is followed by decides where its last token ends, so the readers are followed through
it with everything behind it left open. Numbers are the one thing that may change, since they are
printed with a limited number of digits. -/
namespace Sketch

/-- Names that a source spells as one symbol: nothing in them ends a symbol, and they do not start
like a number. -/
def IsName : Bytes → Prop
  | [] => False
  | first :: rest =>
    (∀ c ∈ first :: rest, c ∉ separators ∧ c ≠ lparen ∧ c ≠ rparen ∧ c ≠ quote) ∧
    first ∉ decimalDigits ∧ ¬ (first = minus ∧ ∃ c ∈ rest.head?, c ∈ decimalDigits)

instance : DecidablePred IsName
  | [] => isFalse id
  | _ :: _ => inferInstanceAs (Decidable (_ ∧ _))

theorem isName_cons_iff {first : UInt8} {rest : Bytes} : IsName (first :: rest) ↔
    (∀ c ∈ first :: rest, ¬ isBlank c ∧ c ≠ lparen ∧ c ≠ rparen ∧ c ≠ quote) ∧
      ¬ isDigit first ∧ ¬ (first = minus ∧ ∃ c ∈ rest.head?, isDigit c) := by
  simp only [isBlank_iff, isDigit_iff]
  rfl

/-- The text of the number is a numeral, and of the same value. -/
def Reprints (x : Float) : Prop :=
  (Numeral.ofToken? (significant 15 x)).map Numeral.value = some x

instance (x : Float) : Decidable (Reprints x) := inferInstanceAs (Decidable (_ = _))

namespace Expr

/-- What can stand in a source, whatever stands inside it. -/
def Spellable : Expr → Prop
  | .string _ text => quote ∉ text
  | .symbol _ name => IsName name
  | .number .. | .list .. => True
  | .nothing | .boolean .. => False

instance : DecidablePred Spellable
  | .string _ text => inferInstanceAs (Decidable (quote ∉ text))
  | .symbol _ name => inferInstanceAs (Decidable (IsName name))
  | .number .. | .list .. => isTrue trivial
  | .nothing | .boolean .. => isFalse id

/-- A number only if its text tells it exactly. -/
def Exact : Expr → Prop
  | .number _ x => Reprints x
  | .nothing | .string .. | .boolean .. | .symbol .. | .list .. => True

instance : DecidablePred Exact
  | .number _ x => inferInstanceAs (Decidable (Reprints x))
  | .nothing | .string .. | .boolean .. | .symbol .. | .list .. => isTrue trivial

/-- A tree whose text says everything about it. -/
def Printable (e : Expr) : Prop := ∀ node ∈ e.nodes, node.Spellable ∧ node.Exact

instance (e : Expr) : Decidable e.Printable :=
  inferInstanceAs (Decidable (∀ node ∈ e.nodes, node.Spellable ∧ node.Exact))

theorem Printable.of_mem {loc : Int} {elements : List Expr}
    (printable : (Expr.list loc elements).Printable) {e : Expr} (member : e ∈ elements) :
    e.Printable :=
  fun node inner => printable node (List.mem_cons_of_mem _ (nodes_subset_insideAll member inner))

end Expr

/-- What may follow an expression without becoming part of it. -/
def Separated (more : Bytes) : Prop := ∀ c ∈ more.head?, isBlank c ∨ c = rparen

theorem takeWhile_append_separated {p : UInt8 → Bool} {body more : Bytes} (inside : ∀ c ∈ body, p c)
    (stops : ∀ c, isBlank c ∨ c = rparen → p c = false) (separated : Separated more) :
    (body ++ more).takeWhile p = body := by
  have stop : more.takeWhile p = [] := by
    cases more with
    | nil => rfl
    | cons c rest => simp [stops c (separated c rfl)]
  rw [List.takeWhile_append_of_pos inside, stop, List.append_nil]

theorem not_continues_of_separating {c : UInt8} (separating : isBlank c ∨ c = rparen) :
    Numeral.continues c = false := by
  rcases separating with blank | rfl
  · exact not_continues_of_isBlank blank
  · decide

theorem not_isDigit_of_separating {c : UInt8} (separating : isBlank c ∨ c = rparen) :
    isDigit c = false := by
  have stops := not_continues_of_separating separating
  rw [Numeral.continues, Bool.or_eq_false_iff] at stops
  exact stops.1

theorem not_continuesSymbol_of_separating {c : UInt8} (separating : isBlank c ∨ c = rparen) :
    continuesSymbol c = false := by
  rcases separating with blank | rfl
  · exact not_continuesSymbol_of_isBlank blank
  · decide

theorem lexemeAt_string {text : Bytes} (closed : quote ∉ text) (more : Bytes) :
    lexemeAt quote (text ++ quote :: more) = .string text := by
  have body : (text ++ quote :: more).takeWhile (· != quote) = text := by
    rw [takeWhile_append_of_stop (by simp), takeWhile_of_quote_not_mem closed]
  rw [lexemeAt_quote, body, if_pos (by simp)]

theorem lexemeAt_number {c : UInt8} {rest more : Bytes} (start : Numeral.starts c rest)
    (inside : ∀ d ∈ rest, Numeral.continues d) (separated : Separated more) :
    lexemeAt c (rest ++ more) = .number (c :: rest) := by
  have starts : Numeral.starts c (rest ++ more) := by
    cases rest with
    | nil =>
      have digit : isDigit c := by simpa [Numeral.starts] using start
      simp [Numeral.starts, digit]
    | cons d ds => exact start
  have other : c ≠ lparen ∧ c ≠ rparen ∧ c ≠ quote := by
    rcases starts_iff.1 start with digit | ⟨rfl, -⟩
    · refine ⟨?_, ?_, ?_⟩ <;> (rintro rfl; contradiction)
    · decide
  rw [lexemeAt_eq, if_neg (by simp [other]), if_neg (by simp [other]), if_neg (by simp [other]),
    if_pos starts,
    takeWhile_append_separated inside (fun _ => not_continues_of_separating) separated]

theorem lexemeAt_symbol {c : UInt8} {rest more : Bytes} (name : IsName (c :: rest))
    (separated : Separated more) : lexemeAt c (rest ++ more) = .symbol (c :: rest) := by
  rw [isName_cons_iff] at name
  obtain ⟨unbroken, notDigit, notMinus⟩ := name
  obtain ⟨-, notOpen, notClose, notQuote⟩ := unbroken c List.mem_cons_self
  have inside : ∀ d ∈ rest, continuesSymbol d := fun d member =>
    continuesSymbol_iff.2 (unbroken d (List.mem_cons_of_mem _ member))
  have notNumber : ¬ Numeral.starts c (rest ++ more) := by
    rw [starts_iff]
    rintro (digit | ⟨isMinus, d, found, digit⟩)
    · exact notDigit digit
    cases rest with
    | nil =>
      rw [not_isDigit_of_separating (separated d found)] at digit
      contradiction
    | cons e es => exact notMinus ⟨isMinus, d, found, digit⟩
  rw [lexemeAt_eq, if_neg (by simpa using notOpen), if_neg (by simpa using notClose),
    if_neg (by simpa using notQuote), if_neg notNumber,
    takeWhile_append_separated inside (fun _ => not_continuesSymbol_of_separating) separated]

/-- The token at a byte that is no blank, by the bytes it takes up. -/
theorem Place.token?_of_lexemeAt {c : UInt8} {rest more : Bytes} {lexeme : Lexeme} (pos : Nat)
    (found : lexemeAt c rest = lexeme) (taken : lexeme.bytes ++ more = c :: rest)
    (visible : ¬ isBlank c) :
    (⟨pos, c :: rest⟩ : Place).token? =
      some (⟨pos, lexeme⟩, ⟨pos + lexeme.bytes.length, more⟩) := by
  have still : (⟨pos, c :: rest⟩ : Place).skipBlanks = ⟨pos, c :: rest⟩ := by
    simp [skipBlanks, advance, visible]
  have behind : (c :: rest).drop lexeme.bytes.length = more := by
    rw [← taken, List.drop_left]
  simp only [token?_eq, still, next?, Option.map_some, found, advance, behind]

theorem Place.token?_opening (pos : Nat) (rest : Bytes) :
    (⟨pos, lparen :: rest⟩ : Place).token? = some (⟨pos, .opening⟩, ⟨pos + 1, rest⟩) :=
  token?_of_lexemeAt pos rfl rfl (by decide)

theorem Place.token?_closing (pos : Nat) (rest : Bytes) :
    (⟨pos, rparen :: rest⟩ : Place).token? = some (⟨pos, .closing⟩, ⟨pos + 1, rest⟩) :=
  token?_of_lexemeAt pos rfl rfl (by decide)

theorem continues_of_isDigit {c : UInt8} (digit : isDigit c) : Numeral.continues c := by
  simp [Numeral.continues, digit]

theorem Numeral.Proper.continues {n : Numeral} (proper : n.Proper) :
    ∀ c ∈ n.whole ++ n.point, Numeral.continues c := by
  intro c member
  rcases List.mem_append.1 member with whole | behind
  · exact continues_of_isDigit (isDigit_iff.2 (proper.whole c whole))
  · unfold Numeral.point at behind
    split at behind
    · cases behind
    · rcases List.mem_cons.1 behind with rfl | fraction
      · decide
      · exact continues_of_isDigit (isDigit_iff.2 (proper.fraction c fraction))

/-- A numeral starts as number tokens do, and goes on as they do. -/
theorem Numeral.Proper.spelling_eq_cons {n : Numeral} (proper : n.Proper) :
    ∃ c rest, n.spelling = c :: rest ∧ Numeral.starts c rest ∧ ∀ d ∈ rest, Numeral.continues d := by
  obtain ⟨first, others, whole⟩ := List.exists_cons_of_ne_nil proper.nonempty
  have digit : isDigit first := isDigit_iff.2 (proper.whole first (by simp [whole]))
  have continues := proper.continues
  unfold Numeral.spelling
  split
  · refine ⟨minus, n.whole ++ n.point, rfl, starts_iff.2 (.inr ⟨rfl, first, ?_, digit⟩), continues⟩
    simp [whole]
  · refine ⟨first, others ++ n.point, by simp [whole], starts_iff.2 (.inl digit), ?_⟩
    intro d member
    exact continues d (by rw [whole]; exact List.mem_cons_of_mem _ member)

/-- Only what comes behind the blanks matters. -/
theorem Reads.of_skipBlanks {limit level : Nat} {aim : Aim} {p p' q : Place} {y : Yield}
    (reads : Reads limit aim level p y q) (same : p'.skipBlanks = p.skipBlanks) :
    Reads limit aim level p' y q := by
  have token : p'.token? = p.token? := by rw [Place.token?_eq, Place.token?_eq, same]
  cases aim with
  | expr => exact reads.of_token? token
  | items loc before =>
    cases reads with
    | ended found =>
      rw [← same]
      exact .ended (token.trans found)
    | closed found => exact .closed (token.trans found)
    | item found unclosed first later =>
      exact .item (token.trans found) unclosed (first.of_token? token) later

/-- What is read as an expression does not start with a closing parenthesis. -/
theorem Reads.token?_of_result {limit level : Nat} {p q : Place} {e : Expr}
    {errors : List ParseError} {visits : List Visit}
    (reads : Reads limit .expr level p ⟨some e, errors, visits⟩ q) :
    ∃ t behind, p.token? = some (t, behind) ∧ t.lexeme ≠ .closing := by
  cases reads with
  | string found | number found _ | symbol found | list found _ _ => exact ⟨_, _, found, nofun⟩

/-- Wherever its text stands inside `level` lists, followed by what is not part of it, the
expression is read there up to its locations, and nothing behind it is touched. -/
def Expr.ReadsBack (limit level : Nat) (e : Expr) : Prop :=
  ∀ (pos : Nat) (more : Bytes), Separated more → ∃ e' visits, e'.bare = e.bare ∧
    Reads limit .expr level ⟨pos, e.text ++ more⟩ ⟨some e', [], visits⟩ ⟨pos + e.text.length, more⟩

section

variable {limit level : Nat} {loc : Int}

theorem readsBack_number {x : Float} (reprints : Reprints x) :
    (Expr.number loc x).ReadsBack limit level := by
  intro pos more separated
  obtain ⟨n, spelled, rfl⟩ := Option.map_eq_some_iff.1 reprints
  obtain ⟨proper, spelling⟩ := Numeral.ofToken?_eq_some_iff.1 spelled
  obtain ⟨c, rest, token, starts, inside⟩ := proper.spelling_eq_cons
  refine ⟨.number pos n.value, [⟨level, .number, pos⟩], rfl, ?_⟩
  rw [Expr.text]
  rw [← spelling, token] at spelled ⊢
  have visible : ¬ isBlank c := by
    rcases starts_iff.1 starts with digit | ⟨rfl, -⟩
    · intro blank
      rw [not_isDigit_of_separating (.inl blank)] at digit
      contradiction
    · decide
  exact .number (Place.token?_of_lexemeAt pos (lexemeAt_number starts inside separated) rfl visible)
    spelled

theorem readsBack_symbol {name : Bytes} (isName : IsName name) :
    (Expr.symbol loc name).ReadsBack limit level := by
  intro pos more separated
  refine ⟨.symbol pos name, [⟨level, .symbol, pos⟩], rfl, ?_⟩
  rw [Expr.text]
  cases name with
  | nil => exact isName.elim
  | cons c rest =>
    have visible : ¬ isBlank c := mt isBlank_iff.1 (isName.1 c List.mem_cons_self).1
    exact .symbol (Place.token?_of_lexemeAt pos (lexemeAt_symbol isName separated) rfl visible)

theorem readsBack_string {text : Bytes} (closed : quote ∉ text) :
    (Expr.string loc text).ReadsBack limit level := by
  intro pos more _
  refine ⟨.string pos text, [⟨level, .string, pos⟩], rfl, ?_⟩
  have taken : quote :: text ++ [quote] ++ more = quote :: (text ++ quote :: more) := by simp
  rw [Expr.text, taken]
  exact .string (Place.token?_of_lexemeAt pos (lexemeAt_string closed more) taken (by decide))

theorem intercalate_cons_eq_flatMap (first : Bytes) (rest : List Bytes) :
    [blank].intercalate (first :: rest) = first ++ rest.flatMap (blank :: ·) := by
  induction rest generalizing first with
  | nil => simp
  | cons second rest ih =>
    rw [List.intercalate_cons_cons, ih, List.flatMap_cons]
    simp

theorem separated_texts (texts : List Bytes) (more : Bytes) :
    Separated (texts.flatMap (blank :: ·) ++ rparen :: more) := by
  intro c found
  cases texts with
  | nil =>
    cases found
    exact .inr rfl
  | cons first rest =>
    cases found
    exact .inl (by decide)

/-- The elements that are left of a list, each behind a blank, up to its end. -/
theorem reads_items {elements : List Expr} (each : ∀ e ∈ elements, e.ReadsBack limit (level + 1))
    (loc : Nat) (before : List Expr) (pos : Nat) (more : Bytes) :
    ∃ elements' visits, elements'.map Expr.bare = elements.map Expr.bare ∧
      Reads limit (.items loc (some before)) level
        ⟨pos, (elements.map Expr.text).flatMap (blank :: ·) ++ rparen :: more⟩
        ⟨some (.list loc (before.reverse ++ elements')), [], visits⟩
        ⟨pos + ((elements.map Expr.text).flatMap (blank :: ·)).length + 1, more⟩ := by
  induction elements generalizing before pos with
  | nil =>
    refine ⟨[], [], rfl, ?_⟩
    rw [List.append_nil]
    exact .closed (Place.token?_closing pos more)
  | cons e rest ih =>
    obtain ⟨first, later⟩ := List.forall_mem_cons.1 each
    obtain ⟨e', visits, bare, reads⟩ :=
      first (pos + 1) _ (separated_texts (rest.map Expr.text) more)
    obtain ⟨rest', visits', bareRest, readsRest⟩ :=
      ih later (e' :: before) (pos + 1 + e.text.length)
    obtain ⟨t, behind, found, unclosed⟩ := reads.token?_of_result
    have readsItems : Reads limit (.items loc (some before)) level _ _ _ :=
      .item found unclosed reads readsRest
    refine ⟨e' :: rest', visits ++ visits', by simp [bare, bareRest], ?_⟩
    have texts : ((e :: rest).map Expr.text).flatMap (blank :: ·) ++ rparen :: more =
        blank :: (e.text ++ ((rest.map Expr.text).flatMap (blank :: ·) ++ rparen :: more)) := by
      simp
    have stop : pos + (((e :: rest).map Expr.text).flatMap (blank :: ·)).length + 1 =
        pos + 1 + e.text.length + ((rest.map Expr.text).flatMap (blank :: ·)).length + 1 := by
      simp only [List.map_cons, List.flatMap_cons, List.length_append, List.length_cons]
      omega
    have elements : before.reverse ++ e' :: rest' = (e' :: before).reverse ++ rest' := by simp
    rw [texts, stop, elements]
    exact readsItems.of_skipBlanks (Place.skipBlanks_cons (by decide) ..)

/-- The first element has no blank before it, but it stands behind the opening parenthesis. -/
theorem reads_elements {elements : List Expr}
    (each : ∀ e ∈ elements, e.ReadsBack limit (level + 1)) (pos : Nat) (more : Bytes) :
    ∃ elements' visits, elements'.map Expr.bare = elements.map Expr.bare ∧
      Reads limit (.items pos (some [])) level
        ⟨pos + 1, [blank].intercalate (elements.map Expr.text) ++ rparen :: more⟩
        ⟨some (.list pos elements'), [], visits⟩
        ⟨pos + 1 + ([blank].intercalate (elements.map Expr.text)).length + 1, more⟩ := by
  cases elements with
  | nil => exact reads_items each pos [] (pos + 1) more
  | cons first rest =>
    obtain ⟨elements', visits, bare, reads⟩ := reads_items each pos [] pos more
    refine ⟨elements', visits, bare, ?_⟩
    have texts : ((first :: rest).map Expr.text).flatMap (blank :: ·) =
        blank :: [blank].intercalate ((first :: rest).map Expr.text) := by
      rw [List.map_cons, List.flatMap_cons, intercalate_cons_eq_flatMap, List.cons_append]
    rw [texts, List.length_cons, ← Nat.add_assoc, Nat.add_right_comm pos] at reads
    exact reads.of_skipBlanks (Place.skipBlanks_cons (by decide) pos _).symm

theorem readsBack_list {elements : List Expr}
    (each : ∀ e ∈ elements, e.ReadsBack limit (level + 1)) (room : level < limit) :
    (Expr.list loc elements).ReadsBack limit level := by
  intro pos more _
  obtain ⟨elements', visits, bare, reads⟩ := reads_elements each pos more
  refine ⟨.list pos elements', ⟨level, .list, pos⟩ :: visits, ?_, ?_⟩
  · rw [Expr.bare, Expr.bare, Expr.relocate, Expr.relocate, Expr.relocateAll_eq_map,
      Expr.relocateAll_eq_map]
    exact congrArg (Expr.list noLoc) bare
  · have text : (Expr.list loc elements).text ++ more =
        lparen :: ([blank].intercalate (elements.map Expr.text) ++ rparen :: more) := by
      simp [Expr.text]
    have stop : pos + (Expr.list loc elements).text.length =
        pos + 1 + ([blank].intercalate (elements.map Expr.text)).length + 1 := by
      simp only [Expr.text, List.length_cons, List.length_append, List.length_nil, Nat.add_assoc,
        Nat.add_comm 1]
    rw [text, stop]
    exact .list (Place.token?_opening pos _) room reads

end

/-- By recursion over the tree: every list takes up one level for its elements. -/
theorem readsBack {limit level : Nat} {e : Expr} (printable : e.Printable)
    (fits : level + e.depth ≤ limit) : e.ReadsBack limit level := by
  have spelled := printable e e.mem_nodes_self
  match e with
  | .nothing | .boolean .. => exact spelled.1.elim
  | .number .. => exact readsBack_number spelled.2
  | .string .. => exact readsBack_string spelled.1
  | .symbol .. => exact readsBack_symbol spelled.1
  | .list loc elements =>
    rw [Expr.depth] at fits
    refine readsBack_list (fun e member => readsBack (printable.of_mem member) ?_) (by omega)
    have inside := Expr.depthAll_le_iff.1 (Nat.le_refl _) e member
    omega
termination_by sizeOf e

theorem read_text {e : Expr} (printable : e.Printable) (fits : e.depth ≤ maxDepth) :
    ∃ e', (read e.text).program = .ok [e'] ∧ e'.bare = e.bare := by
  have back : e.ReadsBack maxDepth 0 := readsBack printable (by omega)
  obtain ⟨e', visits, bare, reads⟩ := back 0 [] fun _ missing => nomatch missing
  rw [List.append_nil] at reads
  obtain ⟨t, behind, found, -⟩ := reads.token?_of_result
  have ended : (⟨0 + e.text.length, []⟩ : Place).token? = none := rfl
  have reading := read_eq_of_readsForms (.form found reads (.ended ended))
  exact ⟨e', by rw [reading]; rfl, bare⟩

/-- Blanks between the texts keep the trees apart. -/
theorem read_texts {program : List Expr} (printable : ∀ e ∈ program, e.Printable)
    (fits : ∀ e ∈ program, e.depth ≤ maxDepth) :
    ∃ program', (read ([blank].intercalate (program.map Expr.text))).program = .ok program' ∧
      program'.map Expr.bare = program.map Expr.bare := by
  induction program with
  | nil => exact ⟨[], by with_unfolding_all rfl, rfl⟩
  | cons e rest ih =>
    obtain ⟨printableFirst, printableLater⟩ := List.forall_mem_cons.1 printable
    obtain ⟨fitsFirst, fitsLater⟩ := List.forall_mem_cons.1 fits
    obtain ⟨e', accepted, bare⟩ := read_text printableFirst fitsFirst
    obtain ⟨rest', acceptedLater, bareLater⟩ := ih printableLater fitsLater
    cases rest with
    | nil => exact ⟨[e'], by simpa using accepted, by simpa using bare⟩
    | cons next rest =>
      have joined := program_append accepted (w := blank) (by decide) acceptedLater
      refine ⟨[e'] ++ rest'.map (·.shift (e.text.length + 1)), ?_, ?_⟩
      · rw [List.map_cons, List.map_cons, List.intercalate_cons_cons, List.append_assoc]
        exact joined
      · have moved : (rest'.map (·.shift (e.text.length + 1))).map Expr.bare =
            rest'.map Expr.bare := by
          simp [Expr.shift, Function.comp_def]
        rw [List.map_append, moved, bareLater]
        simp [bare]

def Lexeme.Spellable : Lexeme → Prop
  | .string text => quote ∉ text
  | .symbol name => IsName name
  | .opening | .closing | .openString _ | .number _ => True

theorem lexemeAt_spellable {c : UInt8} (visible : ¬ isBlank c) (rest : Bytes) :
    (lexemeAt c rest).Spellable := by
  rw [lexemeAt_eq]
  split
  · trivial
  split
  · trivial
  split
  · split
    · intro member
      simpa using List.mem_takeWhile_imp member
    · trivial
  split
  · trivial
  · next notOpen notClose notQuote notNumber =>
    rw [starts_iff, not_or] at notNumber
    refine isName_cons_iff.2 ⟨List.forall_mem_cons.2 ⟨?_, fun d member => ?_⟩, notNumber.1, ?_⟩
    · simp_all
    · exact continuesSymbol_iff.1 (List.mem_takeWhile_imp member)
    · -- the second byte of the name is that of the source
      rintro ⟨isMinus, d, found, digit⟩
      refine notNumber.2 ⟨isMinus, d, ?_, digit⟩
      cases rest with
      | nil => exact found
      | cons first others =>
        rw [List.takeWhile_cons] at found
        split at found
        · exact found
        · cases found

theorem Place.spellable_of_mem_tokens {p : Place} {t : Token} (member : t ∈ p.tokens) :
    t.lexeme.Spellable := by
  induction p using tokens.induct with
  | case1 p ended => simp [tokens_of_none ended] at member
  | case2 p first q found _ ih =>
    rw [tokens_of_some found, List.mem_cons] at member
    rcases member with rfl | later
    · obtain ⟨c, r, next, rfl, -⟩ := token?_eq_some found
      exact lexemeAt_spellable (not_isBlank_of_next? next) r.rest
    · exact ih later

/-- Every node comes from a token. -/
theorem Spells.spellable {used : List Token} {exprs : List Expr} (spelled : Spells used exprs)
    (each : ∀ t ∈ used, t.lexeme.Spellable) : ∀ node ∈ Expr.insideAll exprs, node.Spellable := by
  induction spelled with
  | nil => simp [Expr.insideAll]
  | string _ ih | symbol _ ih =>
    obtain ⟨first, later⟩ := List.forall_mem_cons.1 each
    rw [Expr.insideAll, Expr.inside]
    exact List.forall_mem_cons.2 ⟨first, ih later⟩
  | number _ _ ih =>
    obtain ⟨-, later⟩ := List.forall_mem_cons.1 each
    rw [Expr.insideAll, Expr.inside]
    exact List.forall_mem_cons.2 ⟨trivial, ih later⟩
  | list _ _ inside ih =>
    obtain ⟨-, later⟩ := List.forall_mem_cons.1 each
    obtain ⟨inner, behind⟩ := List.forall_mem_append.1 later
    rw [Expr.insideAll, Expr.inside]
    refine List.forall_mem_cons.2 ⟨trivial, List.forall_mem_append.2 ⟨inside inner, ih ?_⟩⟩
    exact (List.forall_mem_cons.1 behind).2

theorem spellable_of_mem_program {source : Bytes} {program : List Expr} {e node : Expr}
    (accepted : (read source).program = .ok program) (member : e ∈ program)
    (inner : node ∈ e.nodes) : node.Spellable := by
  obtain ⟨clean, rfl⟩ := program_eq_ok.1 accepted
  have spelled := (readsForms_read source).spells clean
  refine spelled.spellable (fun t => Place.spellable_of_mem_tokens) node ?_
  exact Expr.nodes_subset_insideAll member inner

/-- A tree that a source can spell, and whose numbers are printed exactly, is read back from its
text up to locations. All that is read can be spelled, so a program with such numbers is read back
from the texts of its expressions. -/
theorem read_inverts_text :
    (∀ e : Expr, e.Printable → e.depth ≤ maxDepth →
      ∃ e', (read e.text).program = .ok [e'] ∧ e'.bare = e.bare) ∧
    (∀ (source : Bytes) (program : List Expr), (read source).program = .ok program →
      ∀ e ∈ program, e.depth ≤ maxDepth ∧ ∀ node ∈ e.nodes, node.Spellable) ∧
    ∀ (source : Bytes) (program : List Expr), (read source).program = .ok program →
      (∀ e ∈ program, ∀ node ∈ e.nodes, node.Exact) →
      ∃ program', (read ([blank].intercalate (program.map Expr.text))).program = .ok program' ∧
        program'.map Expr.bare = program.map Expr.bare := by
  refine ⟨fun e => read_text, fun source program accepted e member => ?_,
    fun source program accepted exact => ?_⟩
  · exact ⟨depth_le_of_mem_program accepted member,
      fun node inner => spellable_of_mem_program accepted member inner⟩
  · refine read_texts (fun e member node inner => ?_)
      fun e member => depth_le_of_mem_program accepted member
    exact ⟨spellable_of_mem_program accepted member inner, exact e member node inner⟩

/-- Almost a number, a parenthesis and a line end in a string, an empty list and an empty string. -/
theorem read_inverts_text_almost_number :
    let e := Expr.list 7 [.symbol 7 (bytes "-.5"), .number 7 (-0.5), .string 7 (bytes "(\n\x00"),
      .list 7 [], .string 7 []]
    let source := bytes "-0.50-x"
    let program := [Expr.number 0 (-0.5), .symbol 5 (bytes "-x")]
    (e.Printable ∧ e.depth ≤ maxDepth ∧ (read source).program = .ok program ∧
      ∀ e ∈ program, ∀ node ∈ e.nodes, node.Exact) ∧
    e.text = bytes "(-.5 -0.5 \"(\n\x00\" () \"\")" ∧
    [blank].intercalate (program.map Expr.text) = bytes "-0.5 -x" ∧
    (∃ e', (read e.text).program = .ok [e'] ∧ e'.bare = e.bare) ∧
    ∃ program', (read ([blank].intercalate (program.map Expr.text))).program = .ok program' ∧
      program'.map Expr.bare = program.map Expr.bare := by
  intro e source program
  have half : significant 15 (-0.5) = bytes "-0.5" := by decide +kernel
  have value : Numeral.value ⟨true, bytes "0", bytes "50"⟩ = -0.5 := by decide +kernel
  have printable : e.Printable := by decide +kernel
  have fits : e.depth ≤ maxDepth := by decide
  have accepted : (read source).program = .ok program := by
    have symbol : Reads maxDepth .expr 0 ⟨5, bytes "-x"⟩ _ ⟨7, []⟩ := .symbol rfl
    have number : Reads maxDepth .expr 0 (.start source) _ ⟨5, bytes "-x"⟩ := .number rfl rfl
    rw [read_eq_of_readsForms (.form rfl number (.form rfl symbol (.ended rfl)))]
    exact congrArg (fun x => Except.ok [Expr.number 0 x, .symbol 5 (bytes "-x")]) value
  have exact : ∀ e ∈ program, ∀ node ∈ e.nodes, node.Exact := by decide +kernel
  refine ⟨⟨printable, fits, accepted, exact⟩, ?_, ?_, read_inverts_text.1 e printable fits,
    read_inverts_text.2.2 source program accepted exact⟩
  · simp only [e, Expr.text, List.map, half]
    decide
  · simp only [program, Expr.text, List.map, half]
    decide

end Sketch
