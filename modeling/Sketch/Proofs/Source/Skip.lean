import Sketch.Proofs.Source.Token

/-! Skipping a list byte by byte goes from token to token: only parentheses that are tokens count,
and the place reached is one at which tokens are cut the same way. -/
namespace Sketch

/-- Bytes that skipping passes over without a second look. -/
def Plain (c : UInt8) : Prop := c ≠ quote ∧ c ≠ lparen ∧ c ≠ rparen

theorem plain_of_isBlank {c : UInt8} (h : isBlank c) : Plain c := by
  refine ⟨?_, ?_, ?_⟩ <;> rintro rfl <;> contradiction

theorem plain_of_continuesSymbol {c : UInt8} (h : continuesSymbol c) : Plain c := by
  refine ⟨?_, ?_, ?_⟩ <;> rintro rfl <;> contradiction

theorem plain_of_numeral_continues {c : UInt8} (h : Numeral.continues c) : Plain c := by
  refine ⟨?_, ?_, ?_⟩ <;> rintro rfl <;> contradiction

theorem skipList_cons_plain {c : UInt8} (plain : Plain c) (depth pos : Nat) (rest : Bytes) :
    skipList false depth pos (c :: rest) = skipList false depth (pos + 1) rest := by
  obtain ⟨notQuote, notOpen, notClose⟩ := plain
  simp [skipList, notQuote, notOpen, notClose]

theorem skipList_plain {run : Bytes} (plain : ∀ c ∈ run, Plain c) (depth pos : Nat)
    (rest : Bytes) :
    skipList false depth pos (run ++ rest) = skipList false depth (pos + run.length) rest := by
  induction run generalizing pos with
  | nil => rfl
  | cons c cs ih =>
    rw [List.cons_append, skipList_cons_plain (plain c (by simp)),
      ih (fun b member => plain b (by simp [member])), List.length_cons]
    congr 1
    omega

theorem skipList_inString (depth pos : Nat) (c : UInt8) (rest : Bytes) :
    skipList true depth pos (c :: rest) = skipList (c != quote) depth (pos + 1) rest := by
  cases depth <;> rfl

theorem skipList_string {text : Bytes} (clean : quote ∉ text) (depth pos : Nat) (rest : Bytes) :
    skipList true depth pos (text ++ quote :: rest)
      = skipList false depth (pos + text.length + 1) rest := by
  induction text generalizing pos with
  | nil => simp [skipList]
  | cons c cs ih =>
    simp only [List.mem_cons, not_or] at clean
    have inside : (c != quote) = true := by simpa using Ne.symm clean.1
    rw [List.cons_append, skipList_inString, inside, ih clean.2, List.length_cons]
    congr 1
    omega

theorem skipList_openString {text : Bytes} (clean : quote ∉ text) (depth pos : Nat) :
    skipList true depth pos text = ⟨pos + text.length, []⟩ := by
  induction text generalizing pos with
  | nil => rfl
  | cons c cs ih =>
    simp only [List.mem_cons, not_or] at clean
    have inside : (c != quote) = true := by simpa using Ne.symm clean.1
    rw [skipList_inString, inside, ih clean.2, List.length_cons]
    congr 1
    omega

namespace Place

theorem skipList_skipBlanks (p : Place) (depth : Nat) :
    skipList false depth p.pos p.rest
      = skipList false depth p.skipBlanks.pos p.skipBlanks.rest := by
  have plain : ∀ c ∈ p.rest.takeWhile isBlank, Plain c :=
    fun c member => plain_of_isBlank (List.mem_takeWhile_imp member)
  have split := List.takeWhile_append_dropWhile (p := isBlank) (l := p.rest)
  calc skipList false depth p.pos p.rest
      = skipList false depth p.pos (p.rest.takeWhile isBlank ++ p.rest.dropWhile isBlank) := by
        rw [split]
    _ = skipList false depth p.skipBlanks.pos p.skipBlanks.rest := by
        rw [skipList_plain plain, rest_skipBlanks]
        rfl

/-- How skipping goes on behind a token. -/
def skipBehind (q : Place) : Lexeme → Nat → Place
  | .opening, depth => skipList false (depth + 1) q.pos q.rest
  | .closing, 0 => q
  | .closing, depth + 1 => skipList false depth q.pos q.rest
  | _, depth => skipList false depth q.pos q.rest

theorem skipList_of_none {p : Place} (ended : p.token? = none) (depth : Nat) :
    skipList false depth p.pos p.rest = p.skipBlanks := by
  have last := next?_eq_none (token?_eq_none_iff.1 ended)
  rw [skipList_skipBlanks, last, skipList, ← last]

/-- Skipping from the first byte of a lexeme passes the whole of it. -/
theorem skipList_lexemeAt (depth pos : Nat) (c : UInt8) (rest : Bytes) :
    skipList false depth pos (c :: rest) =
      ((⟨pos, c :: rest⟩ : Place).advance (lexemeAt c rest).bytes.length).skipBehind
        (lexemeAt c rest) depth := by
  have split := List.prefix_iff_eq_append.1 (lexemeAt_stands c rest)
  generalize lexeme : lexemeAt c rest = l at split ⊢
  rw [lexemeAt_eq] at lexeme
  split at lexeme
  · next isOpen =>
    obtain rfl := eq_of_beq isOpen
    subst lexeme
    cases depth <;> rfl
  split at lexeme
  · next isClose =>
    obtain rfl := eq_of_beq isClose
    subst lexeme
    cases depth <;> rfl
  split at lexeme
  · next isQuote =>
    obtain rfl := eq_of_beq isQuote
    have clean : quote ∉ rest.takeWhile (· != quote) :=
      fun member => by simpa using List.mem_takeWhile_imp member
    have entered : skipList false depth pos (quote :: rest)
        = skipList true depth (pos + 1) rest := by cases depth <;> rfl
    split at lexeme
    · subst lexeme
      generalize rest.takeWhile (· != quote) = text at clean split ⊢
      generalize behind : (quote :: rest).drop (Lexeme.string text).bytes.length = dropped at split
      obtain rfl : text ++ quote :: dropped = rest := by simpa [Lexeme.bytes] using split
      rw [entered, skipList_string clean]
      simp only [skipBehind, advance, behind]
      congr 1
      simp [Lexeme.bytes]
      omega
    · next isOpen =>
      subst lexeme
      rw [entered, skipList_openString isOpen, takeWhile_of_quote_not_mem isOpen]
      simp [skipBehind, skipList, Lexeme.bytes, advance]
      omega
  have first : Plain c := by simp_all [Plain]
  have plain : ∀ b ∈ l.bytes, Plain b := by
    intro b member
    split at lexeme
    · subst lexeme
      rcases List.mem_cons.1 member with rfl | member
      · exact first
      · exact plain_of_numeral_continues (List.mem_takeWhile_imp member)
    · subst lexeme
      rcases List.mem_cons.1 member with rfl | member
      · exact first
      · exact plain_of_continuesSymbol (List.mem_takeWhile_imp member)
  have passed := skipList_plain plain depth pos ((c :: rest).drop l.bytes.length)
  rw [split] at passed
  rw [passed]
  split at lexeme
  · subst lexeme
    rfl
  · subst lexeme
    rfl

theorem skipList_of_token? {p q : Place} {t : Token} (found : p.token? = some (t, q))
    (depth : Nat) : skipList false depth p.pos p.rest = q.skipBehind t.lexeme depth := by
  obtain ⟨c, r, next, rfl, rfl⟩ := token?_eq_some found
  obtain ⟨rest, -⟩ := next?_eq_some next
  have ahead : p.skipBlanks = ⟨p.skipBlanks.pos, c :: r.rest⟩ := by rw [← rest]
  rw [skipList_skipBlanks, rest, skipList_lexemeAt, ← ahead]

theorem stop_skipList (inString : Bool) (depth pos : Nat) (rest : Bytes) :
    (skipList inString depth pos rest).stop = pos + rest.length := by
  fun_induction skipList inString depth pos rest <;> simp_all [stop] <;> omega

end Place

end Sketch
