import Sketch.Proofs.Source.Cut

/-! What errors are about. The bytes that an error covers stand in the source where it is located, and
only those of a string that is never closed can run over several lines. -/
namespace Sketch

/-- The bytes that a flaw is about. -/
def Flaw.marked : Flaw → Bytes
  | .badNumber token => token
  | .unclosedString text => quote :: text
  | .strayClose => [rparen]
  | .tooDeep | .unclosedList => [lparen]

theorem Flaw.length_marked (flaw : Flaw) : flaw.marked.length = flaw.length := by cases flaw <;> rfl

/-- Number tokens do not run over several lines. -/
def Flaw.Solid : Flaw → Prop
  | .badNumber token => token ≠ [] ∧ newline ∉ token
  | .strayClose | .tooDeep | .unclosedString _ | .unclosedList => True

/-- What the error is about stands where it is located. -/
structure ParseError.Stands (source : Bytes) (e : ParseError) : Prop where
  marked : e.flaw.marked <+: source.drop e.loc
  solid : e.flaw.Solid

theorem solid_of_lexemeAt_number {c : UInt8} {rest token : Bytes}
    (h : lexemeAt c rest = .number token) : token ≠ [] ∧ newline ∉ token := by
  rw [lexemeAt_eq] at h
  split at h
  · contradiction
  split at h
  · contradiction
  split at h
  · split at h <;> contradiction
  split at h
  · next starts =>
    cases h
    refine ⟨List.cons_ne_nil _ _, fun member => ?_⟩
    rcases List.mem_cons.1 member with rfl | later
    · have none : Numeral.starts newline rest = false := rfl
      rw [none] at starts
      contradiction
    · have continues := List.mem_takeWhile_imp later
      contradiction
  · contradiction

theorem Place.solid_of_number {p q : Place} {loc : Nat} {token : Bytes}
    (found : p.token? = some (⟨loc, .number token⟩, q)) : token ≠ [] ∧ newline ∉ token := by
  obtain ⟨c, r, -, same, -⟩ := token?_eq_some found
  exact solid_of_lexemeAt_number (congrArg Token.lexeme same).symm

theorem Reads.errors_stand {limit level : Nat} {aim : Aim} {p q : Place} {y : Yield} {source : Bytes}
    (reads : Reads limit aim level p y q) (within : p.Within source)
    (opened : ∀ loc items, aim = .items loc items → [lparen] <+: source.drop loc) :
    ∀ e ∈ y.errors, e.Stands source := by
  induction reads with
  | string | number | symbol | closed => nofun
  | openString found | strayClose found | tooDeep found _ =>
    exact List.forall_mem_singleton.2 ⟨within.stands found, trivial⟩
  | badNumber found _ =>
    exact List.forall_mem_singleton.2 ⟨within.stands found, Place.solid_of_number found⟩
  | ended => exact List.forall_mem_singleton.2 ⟨opened _ _ rfl, trivial⟩
  | list found _ _ ih =>
    refine ih (within.of_token? found) fun loc items same => ?_
    cases same
    exact within.stands found
  | item _ _ readsFirst _ first later =>
    refine List.forall_mem_append.2 ⟨first within nofun, later (readsFirst.within within) ?_⟩
    intro loc items same
    cases same
    exact opened _ _ rfl

theorem ReadsForms.errors_stand {limit : Nat} {p : Place} {forms : List Expr}
    {errors : List ParseError} {visits : List Visit} {source : Bytes}
    (reads : ReadsForms limit p forms errors visits) (within : p.Within source) :
    ∀ e ∈ errors, e.Stands source := by
  induction reads with
  | ended => nofun
  | form _ readsFirst _ ih =>
    exact List.forall_mem_append.2
      ⟨readsFirst.errors_stand within nofun, ih (readsFirst.within within)⟩

theorem errors_stand {source : Bytes} {e : ParseError} (reported : e ∈ (read source).errors) :
    e.Stands source :=
  (readsForms_read source).errors_stand (.start source) e reported

/-- There is always something that an error is about. -/
theorem ParseError.Stands.length_pos {source : Bytes} {e : ParseError} (stands : e.Stands source) :
    0 < e.flaw.length := by
  obtain ⟨flaw, loc⟩ := e
  cases flaw with
  | badNumber token => exact List.length_pos_iff.2 stands.solid.1
  | strayClose | tooDeep | unclosedString | unclosedList => exact Nat.succ_pos _

theorem ParseError.Stands.solid_iff {source : Bytes} {e : ParseError} (stands : e.Stands source) :
    newline ∉ e.flaw.marked ↔ ∀ text, e.flaw = .unclosedString text → newline ∉ text := by
  have others : newline ≠ quote ∧ newline ≠ lparen ∧ newline ≠ rparen := by decide
  obtain ⟨flaw, loc⟩ := e
  cases flaw with
  | badNumber token => simpa [Flaw.marked] using stands.solid.2
  | unclosedString | strayClose | tooDeep | unclosedList => simp [Flaw.marked, others]

end Sketch
