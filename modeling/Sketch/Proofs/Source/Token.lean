import Mathlib.Data.List.TakeWhile
import Sketch.Source.Reader

/-! A source as a sequence of tokens, cut from left to right. Blanks only separate, parentheses
stand for themselves, a string runs to the next quote, and numbers and symbols are as long as they
can be. Every token starts at the offset it is labelled with. -/
namespace Sketch

inductive Lexeme where
  | opening
  | closing
  | string (text : Bytes)
  /-- A string that runs to the end of the source. -/
  | openString (text : Bytes)
  | number (token : Bytes)
  | symbol (name : Bytes)
  deriving DecidableEq

/-- The bytes of the source that a lexeme takes up. -/
def Lexeme.bytes : Lexeme → Bytes
  | .opening => [lparen]
  | .closing => [rparen]
  | .string text => quote :: text ++ [quote]
  | .openString text => quote :: text
  | .number token => token
  | .symbol name => name

def separators : Bytes := bytes "\t\n\x0b\x0c\r "

def decimalDigits : Bytes := bytes "0123456789"

/-- The lexeme that starts at the byte `c`, which separates nothing, before `rest`. -/
def lexemeAt (c : UInt8) (rest : Bytes) : Lexeme :=
  if c == lparen then .opening
  else if c == rparen then .closing
  else if c == quote then
    let text := rest.takeWhile (· != quote)
    if quote ∈ rest then .string text else .openString text
  else if c ∈ decimalDigits ∨ c = minus ∧ ∃ next ∈ rest.head?, next ∈ decimalDigits then
    .number (c :: rest.takeWhile (· ∈ dot :: decimalDigits))
  else .symbol (c :: rest.takeWhile (· ∉ lparen :: rparen :: quote :: separators))

structure Token where
  loc : Nat
  lexeme : Lexeme
  deriving DecidableEq

/-- A property of bytes holds of all if it does of each one of the 256. -/
theorem forall_byte {P : UInt8 → Prop} (each : ∀ n < 256, P (.ofNat n)) (c : UInt8) : P c := by
  rw [← UInt8.ofNat_toNat (x := c)]
  exact each c.toNat c.toNat_lt

theorem isBlank_iff {c : UInt8} : isBlank c ↔ c ∈ separators :=
  forall_byte (P := fun c => isBlank c ↔ c ∈ separators) (by decide +kernel) c

theorem isDigit_iff {c : UInt8} : isDigit c ↔ c ∈ decimalDigits :=
  forall_byte (P := fun c => isDigit c ↔ c ∈ decimalDigits) (by decide +kernel) c

theorem isBlank_eq : isBlank = fun c => decide (c ∈ separators) :=
  funext fun c => by rw [Bool.eq_iff_iff, isBlank_iff, decide_eq_true_iff]

theorem starts_iff {c : UInt8} {rest : Bytes} :
    Numeral.starts c rest ↔ isDigit c ∨ c = minus ∧ ∃ next ∈ rest.head?, isDigit next := by
  cases rest <;> simp [Numeral.starts]

theorem continues_eq : Numeral.continues = fun c => decide (c ∈ dot :: decimalDigits) :=
  funext fun c => by
    rw [Bool.eq_iff_iff, Numeral.continues, Bool.or_eq_true, isDigit_iff]
    simp [or_comm]

theorem continuesSymbol_iff {c : UInt8} :
    continuesSymbol c ↔ ¬ isBlank c ∧ c ≠ lparen ∧ c ≠ rparen ∧ c ≠ quote := by
  simp [continuesSymbol, and_assoc]

theorem continuesSymbol_eq :
    continuesSymbol = fun c => decide (c ∉ lparen :: rparen :: quote :: separators) :=
  funext fun c => by
    rw [Bool.eq_iff_iff, continuesSymbol_iff, isBlank_iff]
    simp [and_comm, and_left_comm, and_assoc]

/-- The readers tell bytes apart as the tokens do. -/
theorem lexemeAt_eq (c : UInt8) (rest : Bytes) : lexemeAt c rest =
    if c == lparen then .opening
    else if c == rparen then .closing
    else if c == quote then
      if quote ∈ rest then .string (rest.takeWhile (· != quote))
      else .openString (rest.takeWhile (· != quote))
    else if Numeral.starts c rest then .number (c :: rest.takeWhile Numeral.continues)
    else .symbol (c :: rest.takeWhile continuesSymbol) := by
  rw [lexemeAt, continues_eq, continuesSymbol_eq]
  simp only [starts_iff, isDigit_iff]

theorem lexemeAt_quote (rest : Bytes) : lexemeAt quote rest =
    if quote ∈ rest then .string (rest.takeWhile (· != quote))
    else .openString (rest.takeWhile (· != quote)) := rfl

theorem lexemeAt_ne_closing {c : UInt8} {rest : Bytes} (differs : c ≠ rparen) :
    lexemeAt c rest ≠ .closing := by
  rw [lexemeAt_eq]
  split
  · simp
  split
  · simp_all
  split
  · split <;> simp
  split <;> simp

/-- A quote ends the bytes before it that are none. -/
theorem takeWhile_append_of_quote_mem {rest : Bytes} (closed : quote ∈ rest) :
    ∃ behind, rest.takeWhile (· != quote) ++ quote :: behind = rest := by
  induction rest with
  | nil => simp at closed
  | cons c cs ih =>
    by_cases here : c = quote
    · exact ⟨cs, by simp [here]⟩
    · obtain ⟨behind, split⟩ := ih (by simpa [Ne.symm here] using closed)
      refine ⟨behind, ?_⟩
      simp [here, split]

theorem takeWhile_of_quote_not_mem {rest : Bytes} (clean : quote ∉ rest) :
    rest.takeWhile (· != quote) = rest := by
  rw [List.takeWhile_eq_self_iff]
  intro c member
  have differs : c ≠ quote := fun same => clean (same ▸ member)
  simpa using differs

theorem eq_of_lexemeAt_openString {c : UInt8} {rest text : Bytes}
    (h : lexemeAt c rest = .openString text) : c = quote ∧ text = rest := by
  rw [lexemeAt_eq] at h
  split at h
  · contradiction
  split at h
  · contradiction
  split at h
  · next isQuote =>
    split at h
    · contradiction
    · next isOpen =>
      rw [takeWhile_of_quote_not_mem isOpen] at h
      cases h
      exact ⟨eq_of_beq isQuote, rfl⟩
  split at h <;> contradiction

/-- A lexeme stands where it starts. -/
theorem lexemeAt_stands (c : UInt8) (rest : Bytes) : (lexemeAt c rest).bytes <+: c :: rest := by
  rw [lexemeAt_eq]
  split
  · next h => simp [Lexeme.bytes, eq_of_beq h]
  split
  · next h => simp [Lexeme.bytes, eq_of_beq h]
  split
  · next h =>
    obtain rfl := eq_of_beq h
    split
    · next closed =>
      obtain ⟨behind, split⟩ := takeWhile_append_of_quote_mem closed
      exact ⟨behind, by simp [Lexeme.bytes, split]⟩
    · next clean => simp [Lexeme.bytes, takeWhile_of_quote_not_mem clean]
  split
  · simpa [Lexeme.bytes] using List.takeWhile_prefix _
  · simpa [Lexeme.bytes] using List.takeWhile_prefix _

theorem length_lexemeAt_pos (c : UInt8) (rest : Bytes) : 0 < (lexemeAt c rest).bytes.length := by
  rw [lexemeAt_eq]
  split
  · simp [Lexeme.bytes]
  split
  · simp [Lexeme.bytes]
  split
  · split <;> simp [Lexeme.bytes]
  split <;> simp [Lexeme.bytes]

namespace Place

/-- The next token at or behind a place, and the place behind it. -/
def token? (p : Place) : Option (Token × Place) :=
  match p.rest.dropWhile (· ∈ separators) with
  | [] => none
  | c :: rest =>
    let loc := p.pos + (p.rest.takeWhile (· ∈ separators)).length
    let lexeme := lexemeAt c rest
    some (⟨loc, lexeme⟩, ⟨loc + lexeme.bytes.length, (c :: rest).drop lexeme.bytes.length⟩)

theorem token?_eq (p : Place) : p.token? = p.skipBlanks.next?.map fun (c, q) =>
    (⟨p.skipBlanks.pos, lexemeAt c q.rest⟩,
      p.skipBlanks.advance (lexemeAt c q.rest).bytes.length) := by
  have ahead := p.rest_skipBlanks
  have passed : p.skipBlanks.pos = p.pos + (p.rest.takeWhile isBlank).length := rfl
  rw [token?, next?, ← isBlank_eq, ← ahead]
  cases rest : p.skipBlanks.rest with
  | nil => rfl
  | cons c rest => simp [advance, passed, rest]

theorem next?_eq_none {p : Place} (ended : p.next? = none) : p.rest = [] := by
  unfold next? at ended
  split at ended
  · assumption
  · contradiction

/-- Blanks are skipped up to a byte that is none. -/
theorem not_isBlank_of_next? {p q : Place} {c : UInt8}
    (found : p.skipBlanks.next? = some (c, q)) : ¬isBlank c := by
  have ahead := List.head?_dropWhile_not isBlank p.rest
  rw [← rest_skipBlanks, (next?_eq_some found).1] at ahead
  simpa using ahead

theorem skipBlanks_cons {w : UInt8} (separating : isBlank w) (pos : Nat) (rest : Bytes) :
    (⟨pos, w :: rest⟩ : Place).skipBlanks = (⟨pos + 1, rest⟩ : Place).skipBlanks := by
  simp only [skipBlanks, advance, List.takeWhile_cons_of_pos separating, List.length_cons,
    List.drop_succ_cons, mk.injEq, and_true]
  omega

theorem advance_succ_of_next? {p q : Place} {c : UInt8} (found : p.next? = some (c, q))
    (count : Nat) : p.advance (count + 1) = q.advance count := by
  obtain ⟨rest, pos⟩ := next?_eq_some found
  simp only [advance, rest, pos, List.drop_succ_cons, Place.mk.injEq, and_true]
  omega

/-- The token at the next byte `c` that is no blank; `q` lies behind that byte. -/
theorem token?_of_next? {p q : Place} {c : UInt8} (found : p.skipBlanks.next? = some (c, q)) :
    p.token? = some (⟨p.skipBlanks.pos, lexemeAt c q.rest⟩,
      q.advance ((lexemeAt c q.rest).bytes.length - 1)) := by
  have positive := length_lexemeAt_pos c q.rest
  have behind := advance_succ_of_next? found ((lexemeAt c q.rest).bytes.length - 1)
  rw [Nat.sub_add_cancel positive] at behind
  simp [token?_eq, found, behind]

theorem token?_eq_none_iff {p : Place} : p.token? = none ↔ p.skipBlanks.next? = none := by
  simp [token?_eq]

/-- What a found token says about the bytes ahead. -/
theorem token?_eq_some {p q : Place} {t : Token} (found : p.token? = some (t, q)) :
    ∃ c r, p.skipBlanks.next? = some (c, r) ∧ t = ⟨p.skipBlanks.pos, lexemeAt c r.rest⟩ ∧
      q = p.skipBlanks.advance t.lexeme.bytes.length := by
  simp only [token?_eq, Option.map_eq_some_iff] at found
  obtain ⟨⟨c, r⟩, next, same⟩ := found
  cases same
  exact ⟨c, r, next, rfl, rfl⟩

theorem token?_ne_closing {p q : Place} {t : Token} (found : p.token? = some (t, q))
    (unclosed : t.lexeme ≠ .closing) (loc : Nat) (r : Place) :
    p.token? ≠ some (⟨loc, .closing⟩, r) := by
  intro closing
  rw [found] at closing
  cases closing
  exact unclosed rfl

theorem length_rest_lt_skipBlanks {p q : Place} {t : Token} (found : p.token? = some (t, q)) :
    q.rest.length < p.skipBlanks.rest.length := by
  obtain ⟨c, r, next, rfl, rfl⟩ := token?_eq_some found
  have positive := length_lexemeAt_pos c r.rest
  have shorter := length_rest_of_next? next
  simp only [rest_advance, List.length_drop]
  omega

theorem length_rest_of_token? {p q : Place} {t : Token} (found : p.token? = some (t, q)) :
    q.rest.length < p.rest.length :=
  Nat.lt_of_lt_of_le (length_rest_lt_skipBlanks found) p.length_rest_skipBlanks_le

def tokens (p : Place) : List Token :=
  match found : p.token? with
  | none => []
  | some (t, q) =>
    have := length_rest_of_token? found
    t :: q.tokens
termination_by p.rest.length

theorem tokens_of_none {p : Place} (ended : p.token? = none) : p.tokens = [] := by
  rw [tokens]
  split
  · rfl
  · simp_all

theorem tokens_of_some {p q : Place} {t : Token} (found : p.token? = some (t, q)) :
    p.tokens = t :: q.tokens := by
  rw [tokens]
  split
  · simp_all
  · simp_all

theorem tokens_of_rest_nil {p : Place} (ended : p.rest = []) : p.tokens = [] := by
  apply tokens_of_none
  simp [token?, ended]

/-- Where the source ends. -/
def stop (p : Place) : Nat := p.pos + p.rest.length

theorem stop_advance {p : Place} {count : Nat} (inside : count ≤ p.rest.length) :
    (p.advance count).stop = p.stop := by
  simp only [stop, pos_advance, rest_advance, List.length_drop]
  omega

@[simp] theorem stop_skipBlanks (p : Place) : p.skipBlanks.stop = p.stop := by
  have front : p.rest.takeWhile isBlank <+: p.rest := List.takeWhile_prefix isBlank
  exact stop_advance front.length_le

theorem stop_of_token? {p q : Place} {t : Token} (found : p.token? = some (t, q)) :
    q.stop = p.stop := by
  obtain ⟨c, r, next, rfl, rfl⟩ := token?_eq_some found
  have inside := (lexemeAt_stands c r.rest).length_le
  rw [← (next?_eq_some next).1] at inside
  rw [stop_advance inside, stop_skipBlanks]

/-- An open string leaves nothing of the source behind it. -/
theorem stop_eq_of_openString {p q : Place} {loc : Nat} {text : Bytes}
    (found : p.token? = some (⟨loc, .openString text⟩, q)) : p.stop = loc + text.length + 1 := by
  obtain ⟨c, r, next, token, -⟩ := token?_eq_some found
  obtain ⟨rest, -⟩ := next?_eq_some next
  simp only [Token.mk.injEq] at token
  obtain ⟨rfl, lexeme⟩ := token
  obtain ⟨-, rfl⟩ := eq_of_lexemeAt_openString lexeme.symm
  rw [← stop_skipBlanks, stop, rest, List.length_cons]
  omega

/-- A place of a source has the rest of it ahead. -/
def Within (source : Bytes) (p : Place) : Prop := p.rest = source.drop p.pos

theorem Within.start (source : Bytes) : (Place.start source).Within source := rfl

theorem Within.advance {source : Bytes} {p : Place} (within : p.Within source) (count : Nat) :
    (p.advance count).Within source := by
  simp only [Within, rest_advance, pos_advance, ← List.drop_drop]
  rw [← within]

theorem lexeme_prefix_of_mem_tokens {source : Bytes} {p : Place} (within : p.Within source)
    {t : Token} (member : t ∈ p.tokens) : t.lexeme.bytes <+: source.drop t.loc := by
  induction p using tokens.induct with
  | case1 p ended => simp [tokens_of_none ended] at member
  | case2 p first q found _ ih =>
    obtain ⟨c, r, next, rfl, rfl⟩ := token?_eq_some found
    have ahead : p.skipBlanks.Within source := within.advance _
    rw [tokens_of_some found, List.mem_cons] at member
    rcases member with rfl | member
    · rw [← ahead, (next?_eq_some next).1]
      exact lexemeAt_stands c r.rest
    · exact ih (ahead.advance _) member

end Place

/-- The tokens of a source. -/
def tokens (source : Bytes) : List Token := (Place.start source).tokens

/-- Every token stands in the source at the offset it is labelled with. -/
theorem lexeme_prefix_of_mem {source : Bytes} {t : Token} (member : t ∈ tokens source) :
    t.lexeme.bytes <+: source.drop t.loc :=
  Place.lexeme_prefix_of_mem_tokens (.start source) member

end Sketch
