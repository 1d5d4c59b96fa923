import Sketch.Proofs.Source.Diagnosis

/-! A source is a program exactly if its tokens are legal, and it is the program that they spell:
the readers accept no more and no less than the grammar does. -/
namespace Sketch

/-- The scan finds nothing wrong with legal tokens, and only with those. -/
theorem diagnose_eq_nil_iff {limit size : Nat} {opens : List Nat} {rest : List Token}
    (bounded : opens.length ≤ limit) :
    diagnose limit size 0 opens rest = [] ↔ Legal limit opens.length rest := by
  induction rest generalizing opens with
  | nil => simp [diagnose, legal_nil_iff]
  | cons t rest ih =>
    obtain ⟨loc, lexeme⟩ := t
    cases lexeme with
    | opening =>
      have step : (opens.length + 1) + closings [⟨loc, .opening⟩]
          = opens.length + openings [⟨loc, .opening⟩] := rfl
      rw [legal_cons_iff step bounded, diagnose]
      by_cases room : opens.length < limit
      · have inside : diagnose limit size 0 (loc :: opens) rest = [] ↔
            Legal limit (opens.length + 1) rest := ih room
        rw [if_pos room, inside]
        simp [Lexeme.Legal, Nat.succ_le_of_lt room]
      · have full : ¬ opens.length + 1 ≤ limit := by omega
        simp [room, full]
    | closing =>
      cases opens with
      | nil => simp [diagnose, not_legal_closing]
      | cons inner outer =>
        have step : outer.length + closings [⟨loc, .closing⟩]
            = (inner :: outer).length + openings [⟨loc, .closing⟩] := rfl
        have inside : outer.length ≤ limit := Nat.le_of_succ_le bounded
        rw [legal_cons_iff step bounded, diagnose, ih inside]
        simp [Lexeme.Legal, inside]
    | string text =>
      have passed : diagnose limit size 0 opens (⟨loc, .string text⟩ :: rest)
          = diagnose limit size 0 opens rest := rfl
      rw [legal_cons_iff rfl bounded, passed, ih bounded]
      simp [Lexeme.Legal, bounded]
    | symbol name =>
      have passed : diagnose limit size 0 opens (⟨loc, .symbol name⟩ :: rest)
          = diagnose limit size 0 opens rest := rfl
      rw [legal_cons_iff rfl bounded, passed, ih bounded]
      simp [Lexeme.Legal, bounded]
    | number token =>
      rw [legal_cons_iff rfl bounded, diagnose]
      by_cases legal : IsNumeral token
      · rw [if_pos legal, ih bounded]
        simp [Lexeme.Legal, legal, bounded]
      · simp [Lexeme.Legal, legal]
    | openString text =>
      rw [legal_cons_iff rfl bounded, diagnose]
      simp [Lexeme.Legal]

theorem addItem_eq_some {items : Option (List Expr)} {item : Option Expr} {newest : List Expr}
    (added : addItem items item = some newest) :
    ∃ older element, items = some older ∧ item = some element ∧ newest = element :: older := by
  cases items <;> cases item <;> simp_all [addItem]

theorem Reads.errors_eq_nil {limit level : Nat} {aim : Aim} {p q : Place} {y : Yield} {e : Expr}
    (reads : Reads limit aim level p y q) (whole : y.result = some e) : y.errors = [] :=
  (reads.result_isSome_iff.1 (Option.isSome_of_eq_some whole)).2

theorem Reads.exists_result {limit level : Nat} {p q : Place} {y : Yield}
    (reads : Reads limit .expr level p y q) (clean : y.errors = []) : ∃ e, y.result = some e :=
  Option.isSome_iff_exists.1 (reads.result_isSome_iff.2 ⟨trivial, clean⟩)

/-- What the tokens that were read spell. -/
def Aim.Spelled : Aim → List Token → Expr → Prop
  | .expr, used, e => Spells used [e]
  | .items loc before, used, e => ∃ newest inner stop elements, before = some newest ∧
      used = inner ++ [⟨stop, .closing⟩] ∧ Spells inner elements ∧
      e = .list loc (newest.reverse ++ elements)

theorem Reads.spelled {limit level : Nat} {aim : Aim} {p q : Place} {y : Yield} {e : Expr}
    (reads : Reads limit aim level p y q) (whole : y.result = some e) :
    ∃ used, p.tokens = used ++ q.tokens ∧ aim.Spelled used e := by
  induction reads generalizing e with
  | string found =>
    cases whole
    exact ⟨[_], Place.tokens_of_some found, .string .nil⟩
  | symbol found =>
    cases whole
    exact ⟨[_], Place.tokens_of_some found, .symbol .nil⟩
  | number found spelled =>
    cases whole
    obtain ⟨proper, rfl⟩ := Numeral.ofToken?_eq_some_iff.1 spelled
    exact ⟨[_], Place.tokens_of_some found, .number proper .nil⟩
  | openString | badNumber | strayClose | tooDeep | ended => contradiction
  | list found _ _ ih =>
    obtain ⟨used, cut, before, inner, stop, elements, empty, rfl, spelled, rfl⟩ := ih whole
    cases empty
    refine ⟨_, ?_, @Spells.list _ _ _ _ stop _ spelled .nil⟩
    rw [Place.tokens_of_some found, cut, List.cons_append]
  | closed found =>
    obtain ⟨before, rfl, rfl⟩ := Option.map_eq_some_iff.1 whole
    exact ⟨[_], Place.tokens_of_some found, before, [], _, [], rfl, rfl, .nil, by simp⟩
  | item found unclosed readsFirst _ first later =>
    obtain ⟨used, cut, newest, inner, stop, elements, added, rfl, spelled, rfl⟩ := later whole
    obtain ⟨older, element, rfl, rfl, rfl⟩ := addItem_eq_some added
    obtain ⟨front, cutFirst, one⟩ := first rfl
    refine ⟨front ++ (inner ++ [⟨stop, .closing⟩]), ?_, older, front ++ inner, stop,
      element :: elements, rfl, ?_, one.append spelled, ?_⟩
    · simp only [cutFirst, cut, List.append_assoc]
    · rw [List.append_assoc]
    · simp

theorem ReadsForms.spells {limit : Nat} {p : Place} {forms : List Expr}
    {errors : List ParseError} {visits : List Visit}
    (reads : ReadsForms limit p forms errors visits) (clean : errors = []) :
    Spells p.tokens forms := by
  induction reads with
  | ended found =>
    rw [Place.tokens_of_none found]
    exact .nil
  | form found readsFirst _ ih =>
    obtain ⟨cleanFirst, cleanLater⟩ := List.append_eq_nil_iff.1 clean
    obtain ⟨e, whole⟩ := readsFirst.exists_result cleanFirst
    obtain ⟨used, cut, one⟩ := readsFirst.spelled whole
    simp only at whole
    rw [cut, whole]
    exact Spells.append one (ih cleanLater)

theorem program_eq_ok {source : Bytes} {program : List Expr} :
    (read source).program = .ok program ↔
      (read source).errors = [] ∧ (read source).forms = program := by
  unfold Reading.program
  split <;> simp_all

theorem errors_eq_nil_iff (source : Bytes) :
    (read source).errors = [] ↔ Legal maxDepth 0 (tokens source) := by
  have legal : diagnose maxDepth source.length 0 [] (tokens source) = [] ↔ _ :=
    diagnose_eq_nil_iff (Nat.zero_le _)
  rw [← diagnostics_read, List.map_eq_nil_iff] at legal
  exact legal

/-- The readers accept exactly the legal sources, and give the only program their tokens spell, in
which every node is located at the token it starts with. -/
theorem program_eq_ok_iff_grammar (source : Bytes) :
    maxDepth = 1000 ∧
    ((∃ program, (read source).program = .ok program) ↔ Legal maxDepth 0 (tokens source)) ∧
    (∀ program, (read source).program = .ok program ↔
      Legal maxDepth 0 (tokens source) ∧ Spells (tokens source) program) ∧
    ∀ t ∈ tokens source, t.lexeme.bytes <+: source.drop t.loc := by
  refine ⟨rfl, ?_, fun program => ?_, fun t member => lexeme_prefix_of_mem member⟩
  · simp [program_eq_ok, errors_eq_nil_iff]
  rw [program_eq_ok, ← errors_eq_nil_iff]
  constructor
  · rintro ⟨clean, rfl⟩
    exact ⟨clean, (readsForms_read source).spells clean⟩
  · rintro ⟨clean, spelled⟩
    exact ⟨clean, ((readsForms_read source).spells clean).unique spelled⟩

end Sketch
