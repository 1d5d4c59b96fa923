import Sketch.Proofs.Source.Token

/-! The grammar: which tokens are legal and which expressions they spell. Number tokens are spelled
numerals, parentheses balance within a limited depth, and no sequence of tokens spells two
programs. -/
namespace Sketch

namespace Numeral

/-- At least one digit before the point, and nothing but digits on either side of it. -/
structure Proper (n : Numeral) : Prop where
  nonempty : n.whole ≠ []
  whole : ∀ c ∈ n.whole, c ∈ decimalDigits
  fraction : ∀ c ∈ n.fraction, c ∈ decimalDigits

/-- The point is written only before digits. -/
def point (n : Numeral) : Bytes := if n.fraction = [] then [] else dot :: n.fraction

/-- `-? digit+ (. digit+)?` -/
def spelling (n : Numeral) : Bytes := (if n.negative then [minus] else []) ++ (n.whole ++ n.point)

theorem unsigned?_eq_some {negative : Bool} {token : Bytes} {n : Numeral}
    (spelled : unsigned? negative token = some n) :
    n.negative = negative ∧ n.Proper ∧ n.whole ++ n.point = token := by
  have split := List.takeWhile_append_dropWhile (p := isDigit) (l := token)
  have digits (c : UInt8) (member : c ∈ token.takeWhile isDigit) : c ∈ decimalDigits :=
    isDigit_iff.1 (List.mem_takeWhile_imp member)
  unfold unsigned? at spelled
  dsimp only at spelled
  split at spelled
  · contradiction
  · next some =>
    have nonempty : token.takeWhile isDigit ≠ [] := by simpa using some
    split at spelled
    · next all =>
      cases spelled
      rw [all, List.append_nil] at split
      exact ⟨rfl, ⟨nonempty, digits, by simp⟩, by simpa [point] using split⟩
    · next c fraction rest =>
      split at spelled
      · next h =>
        cases spelled
        simp only [Bool.and_eq_true, beq_iff_eq, Bool.not_eq_true', List.isEmpty_eq_false_iff,
          List.all_eq_true] at h
        obtain ⟨⟨rfl, some⟩, decimals⟩ := h
        rw [rest] at split
        exact ⟨rfl, ⟨nonempty, digits, fun c member => isDigit_iff.1 (decimals c member)⟩,
          by simpa [point, some] using split⟩
      · contradiction

theorem unsigned?_spelling {n : Numeral} (proper : n.Proper) :
    unsigned? n.negative (n.whole ++ n.point) = some n := by
  have stops : n.point.takeWhile isDigit = [] := by
    unfold point
    split
    · rfl
    · rfl
  have stays : n.point.dropWhile isDigit = n.point := by
    unfold point
    split
    · rfl
    · rfl
  have digits (c : UInt8) (member : c ∈ n.whole) : isDigit c :=
    isDigit_iff.2 (proper.whole c member)
  rw [unsigned?, List.takeWhile_append_of_pos digits, List.dropWhile_append_of_pos digits, stops,
    stays]
  obtain ⟨negative, whole, fraction⟩ := n
  have some : whole.isEmpty = false := by simpa using proper.nonempty
  by_cases empty : fraction = []
  · simp [point, some, empty]
  · have decimals : fraction.all isDigit = true :=
      List.all_eq_true.2 fun c member => isDigit_iff.2 (proper.fraction c member)
    simp [point, some, empty, decimals]

theorem ofToken?_eq_some_iff {token : Bytes} {n : Numeral} :
    ofToken? token = some n ↔ n.Proper ∧ n.spelling = token := by
  constructor
  · intro spelled
    cases token with
    | nil => simp [ofToken?] at spelled
    | cons c rest =>
      simp only [ofToken?] at spelled
      split at spelled
      · next isMinus =>
        obtain ⟨negative, proper, same⟩ := unsigned?_eq_some spelled
        exact ⟨proper, by simp [spelling, negative, same, eq_of_beq isMinus]⟩
      · obtain ⟨negative, proper, same⟩ := unsigned?_eq_some spelled
        exact ⟨proper, by simp [spelling, negative, same]⟩
  · rintro ⟨proper, rfl⟩
    have unsigned := unsigned?_spelling proper
    cases sign : n.negative with
    | true =>
      rw [sign] at unsigned
      simpa [spelling, sign, ofToken?] using unsigned
    | false =>
      rw [sign] at unsigned
      obtain ⟨c, whole, first⟩ := List.exists_cons_of_ne_nil proper.nonempty
      have digit : isDigit c := isDigit_iff.2 (proper.whole c (by simp [first]))
      have notMinus : (c == minus) = false := by
        apply Bool.eq_false_iff.2
        intro same
        rw [eq_of_beq same] at digit
        contradiction
      rw [first, List.cons_append] at unsigned
      simp [spelling, sign, first, ofToken?, notMinus, unsigned]

end Numeral

/-- The whole token spells a numeral. -/
def IsNumeral (token : Bytes) : Prop := ∃ n : Numeral, n.Proper ∧ n.spelling = token

theorem isSome_ofToken?_iff {token : Bytes} :
    (Numeral.ofToken? token).isSome ↔ IsNumeral token := by
  simp [Option.isSome_iff_exists, Numeral.ofToken?_eq_some_iff, IsNumeral]

instance (token : Bytes) : Decidable (IsNumeral token) :=
  decidable_of_iff _ isSome_ofToken?_iff

/-- The expressions that tokens spell one after another, each located at its first token. -/
inductive Spells : List Token → List Expr → Prop where
  | nil : Spells [] []
  | string {loc : Nat} : Spells rest exprs →
      Spells (⟨loc, .string text⟩ :: rest) (.string loc text :: exprs)
  | number {loc : Nat} {n : Numeral} : n.Proper → Spells rest exprs →
      Spells (⟨loc, .number n.spelling⟩ :: rest) (.number loc n.value :: exprs)
  | symbol {loc : Nat} : Spells rest exprs →
      Spells (⟨loc, .symbol name⟩ :: rest) (.symbol loc name :: exprs)
  | list {loc stop : Nat} {inner : List Token} : Spells inner elements → Spells rest exprs →
      Spells (⟨loc, .opening⟩ :: (inner ++ ⟨stop, .closing⟩ :: rest)) (.list loc elements :: exprs)

theorem Spells.append {front back : List Token} {first later : List Expr}
    (spelled : Spells front first) (rest : Spells back later) :
    Spells (front ++ back) (first ++ later) := by
  induction spelled with
  | nil => exact rest
  | string _ ih => exact .string ih
  | number proper _ ih => exact .number proper ih
  | symbol _ ih => exact .symbol ih
  | list inside _ _ ih =>
    rw [List.cons_append, List.append_assoc]
    exact .list inside ih

/-- What is spelled before a closing parenthesis that nothing in it opened does not depend on where
that parenthesis is looked for. -/
theorem Spells.unique_before_closing {front front' back back' : List Token}
    {exprs exprs' : List Expr} {stop stop' : Nat} (spelled : Spells front exprs)
    (spelled' : Spells front' exprs')
    (same : front ++ ⟨stop, .closing⟩ :: back = front' ++ ⟨stop', .closing⟩ :: back') :
    exprs = exprs' ∧ back = back' := by
  induction spelled generalizing front' exprs' stop stop' back back' with
  | nil => cases spelled' <;> simp_all
  | string _ ih =>
    cases spelled' with
    | string later =>
      simp only [List.cons_append, List.cons.injEq, Token.mk.injEq, Lexeme.string.injEq] at same
      obtain ⟨⟨rfl, rfl⟩, same⟩ := same
      obtain ⟨rfl, rfl⟩ := ih later same
      exact ⟨rfl, rfl⟩
    | _ => simp at same
  | number proper _ ih =>
    cases spelled' with
    | number proper' later =>
      simp only [List.cons_append, List.cons.injEq, Token.mk.injEq, Lexeme.number.injEq] at same
      obtain ⟨⟨rfl, numeral⟩, same⟩ := same
      obtain ⟨rfl, rfl⟩ := ih later same
      have this := Numeral.ofToken?_eq_some_iff.2 ⟨proper, rfl⟩
      have other := Numeral.ofToken?_eq_some_iff.2 ⟨proper', rfl⟩
      rw [numeral, other] at this
      cases this
      exact ⟨rfl, rfl⟩
    | _ => simp at same
  | symbol _ ih =>
    cases spelled' with
    | symbol later =>
      simp only [List.cons_append, List.cons.injEq, Token.mk.injEq, Lexeme.symbol.injEq] at same
      obtain ⟨⟨rfl, rfl⟩, same⟩ := same
      obtain ⟨rfl, rfl⟩ := ih later same
      exact ⟨rfl, rfl⟩
    | _ => simp at same
  | list _ _ insideIH ih =>
    cases spelled' with
    | list inside later =>
      simp only [List.cons_append, List.append_assoc, List.cons.injEq, Token.mk.injEq,
        and_true] at same
      obtain ⟨rfl, same⟩ := same
      obtain ⟨rfl, same⟩ := insideIH inside same
      obtain ⟨rfl, rfl⟩ := ih later same
      exact ⟨rfl, rfl⟩
    | _ => simp at same

/-- The grammar is not ambiguous. -/
theorem Spells.unique {front : List Token} {exprs exprs' : List Expr}
    (spelled : Spells front exprs) (spelled' : Spells front exprs') : exprs = exprs' := by
  have closed : front ++ [⟨0, .closing⟩] = front ++ [⟨0, .closing⟩] := rfl
  exact (spelled.unique_before_closing spelled' closed).1

/-- Strings are closed, and number tokens spell numerals. -/
def Lexeme.Legal : Lexeme → Prop
  | .openString _ => False
  | .number token => IsNumeral token
  | .opening | .closing | .string _ | .symbol _ => True

def openings (tokens : List Token) : Nat := tokens.countP (·.lexeme = .opening)

def closings (tokens : List Token) : Nat := tokens.countP (·.lexeme = .closing)

/-- What may be left of a source inside `depth` lists, if at most `limit` may be nested. -/
structure Legal (limit depth : Nat) (tokens : List Token) : Prop where
  lexemes : ∀ t ∈ tokens, t.lexeme.Legal
  /-- No parenthesis closes a list that is not open. -/
  matched : ∀ front, front <+: tokens → closings front ≤ depth + openings front
  /-- Nowhere are more lists open than allowed. -/
  shallow : ∀ front, front <+: tokens → depth + openings front ≤ closings front + limit
  balanced : closings tokens = depth + openings tokens

theorem openings_cons (t : Token) (rest : List Token) :
    openings (t :: rest) = openings [t] + openings rest := by
  simp [openings, List.countP_cons, Nat.add_comm]

theorem closings_cons (t : Token) (rest : List Token) :
    closings (t :: rest) = closings [t] + closings rest := by
  simp [closings, List.countP_cons, Nat.add_comm]

theorem legal_nil_iff {limit depth : Nat} : Legal limit depth [] ↔ depth = 0 := by
  constructor
  · intro legal
    simpa [openings, closings] using legal.balanced.symm
  · rintro rfl
    refine ⟨by simp, ?_, ?_, rfl⟩ <;>
    · intro front empty
      obtain rfl := List.prefix_nil.1 empty
      simp [openings, closings]

/-- A token leads from one depth to the next. -/
theorem legal_cons_iff {limit depth next : Nat} {t : Token} {rest : List Token}
    (step : next + closings [t] = depth + openings [t]) (bounded : depth ≤ limit) :
    Legal limit depth (t :: rest) ↔ t.lexeme.Legal ∧ next ≤ limit ∧ Legal limit next rest := by
  constructor
  · rintro ⟨lexemes, matched, shallow, balanced⟩
    have reached := shallow [t] (by simp)
    rw [openings_cons, closings_cons] at balanced
    refine ⟨lexemes t (by simp), by omega, fun u member => lexemes u (by simp [member]), ?_, ?_,
      by omega⟩
    · intro front before
      have := matched (t :: front) (by simpa using before)
      rw [openings_cons, closings_cons] at this
      omega
    · intro front before
      have := shallow (t :: front) (by simpa using before)
      rw [openings_cons, closings_cons] at this
      omega
  · rintro ⟨first, inside, lexemes, matched, shallow, balanced⟩
    refine ⟨?_, ?_, ?_, ?_⟩
    · intro u member
      rcases List.mem_cons.1 member with rfl | member
      · exact first
      · exact lexemes u member
    · intro front before
      rcases List.prefix_cons_iff.1 before with rfl | ⟨tail, rfl, shorter⟩
      · simp [closings]
      · have := matched tail shorter
        rw [openings_cons, closings_cons]
        omega
    · intro front before
      rcases List.prefix_cons_iff.1 before with rfl | ⟨tail, rfl, shorter⟩
      · simpa [openings, closings] using bounded
      · have := shallow tail shorter
        rw [openings_cons, closings_cons]
        omega
    · rw [openings_cons, closings_cons]
      omega

theorem not_legal_closing {limit loc : Nat} {rest : List Token} :
    ¬ Legal limit 0 (⟨loc, .closing⟩ :: rest) := by
  intro legal
  have := legal.matched [⟨loc, .closing⟩] (by simp)
  simp [openings, closings] at this

end Sketch
