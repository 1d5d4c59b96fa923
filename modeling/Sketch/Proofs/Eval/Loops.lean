import Sketch.Proofs.Eval.Deeds
import Sketch.Proofs.Eval.Halting

/-! Loops, round by round. A round is a test that comes out true and all the forms after it. A loop
goes through as many rounds as its test allows, up to a limit, and the machine it leaves behind is
the one that these rounds and the last test lead to. -/
namespace Sketch

/-- Forms evaluated one after another, none of which fails. -/
inductive Sequence (ev : Evaluator) : List Expr → Machine → Machine → Prop where
  | nil {m : Machine} : Sequence ev [] m m
  | cons {form value : Expr} {rest : List Expr} {m n last : Machine} :
    ev form m = .ok value n → Sequence ev rest n last → Sequence ev (form :: rest) m last

/-- What a value counts as in a test. -/
inductive Expr.CountsAs : Expr → Bool → Prop where
  | boolean {loc : Int} {value : Bool} : CountsAs (.boolean loc value) value
  | zero {loc : Int} {x : Float} : x == 0 → CountsAs (.number loc x) false
  | nonzero {loc : Int} {x : Float} : ¬x == 0 → CountsAs (.number loc x) true
  | empty {loc : Int} : CountsAs (.string loc []) false
  | nonempty {loc : Int} {text : Bytes} : text ≠ [] → CountsAs (.string loc text) true

/-- A test comes out true or false. -/
def Tests (ev : Evaluator) (test : Expr) (m : Machine) (truth : Bool) (n : Machine) : Prop :=
  ∃ value, ev test m = .ok value n ∧ value.CountsAs truth

/-- So many rounds succeed one after another. -/
inductive Rounds (ev : Evaluator) (test : Expr) (forms : List Expr) :
    Nat → Machine → Machine → Prop where
  | zero {m : Machine} : Rounds ev test forms 0 m m
  | succ {count : Nat} {m tested done last : Machine} : Tests ev test m true tested →
    Sequence ev forms tested done → Rounds ev test forms count done last →
    Rounds ev test forms (count + 1) m last

/-- After some of so many rounds, a test or a form fails. -/
inductive RoundFails (ev : Evaluator) (test : Expr) (forms : List Expr) (limit : Nat)
    (m : Machine) : Halt → Machine → Prop where
  | test {count : Nat} {n last : Machine} {halt : Halt} : count ≤ limit →
    Rounds ev test forms count m n → ev test n = .error halt last →
    RoundFails ev test forms limit m halt last
  | form {count : Nat} {n tested reached last : Machine} {before later : List Expr} {form : Expr}
    {halt : Halt} : count < limit → Rounds ev test forms count m n → Tests ev test n true tested →
    forms = before ++ form :: later → Sequence ev before tested reached →
    ev form reached = .error halt last → RoundFails ev test forms limit m halt last

/-- How a loop at `loc` ends that may go through so many rounds, and on which machine. -/
inductive LoopEnds (ev : Evaluator) (loc : Int) (test : Expr) (forms : List Expr) (limit : Nat)
    (m : Machine) : Outcome → Machine → Prop where
  | finished {count : Nat} {n last : Machine} : count ≤ limit → Rounds ev test forms count m n →
    Tests ev test n false last →
    LoopEnds ev loc test forms limit m (.ok (.boolean noLoc false)) last
  | exceeded {n last : Machine} : Rounds ev test forms limit m n → Tests ev test n true last →
    LoopEnds ev loc test forms limit m (.error (.error ⟨.tooManyRounds, loc⟩)) last
  | unsupported {count : Nat} {n last : Machine} {value : Expr} : count ≤ limit →
    Rounds ev test forms count m n → ev test n = .ok value last →
    (∀ truth, ¬value.CountsAs truth) →
    LoopEnds ev loc test forms limit m
      (.error (.error ⟨.badCondition .loop value.kind, test.loc⟩)) last
  | failed {last : Machine} {halt : Halt} : RoundFails ev test forms limit m halt last →
    LoopEnds ev loc test forms limit m (.error halt) last

theorem Expr.truth?_eq_some_iff {e : Expr} {truth : Bool} :
    e.truth? = some truth ↔ e.CountsAs truth := by
  constructor
  · intro known
    cases e with
    | boolean => cases known; exact .boolean
    | number loc x =>
      cases same : x == 0 with
      | true =>
        rw [truth?, bne, same] at known
        cases known
        exact .zero same
      | false =>
        rw [truth?, bne, same] at known
        cases known
        exact .nonzero (by simp [same])
    | string loc text =>
      cases text with
      | nil => cases known; exact .empty
      | cons => cases known; exact .nonempty (List.cons_ne_nil _ _)
    | nothing | symbol | list => cases known
  · intro counts
    cases counts <;> simp_all [truth?, bne]

theorem Expr.truth?_eq_none_iff {e : Expr} : e.truth? = none ↔ ∀ truth, ¬e.CountsAs truth := by
  simp [Option.eq_none_iff_forall_ne_some, truth?_eq_some_iff]

/-- A loop that may go through so many rounds. -/
def loopUpTo (ev : Evaluator) (loc : Int) (test : Expr) (forms : List Expr) (limit : Nat) :
    EvalM Expr := do
  Form.repeatWhile (Form.holdsNow ev test) (forms.forM fun form => discard (ev form))
    (fail .tooManyRounds loc) limit
  return .boolean noLoc false

section

variable {ev : Evaluator} {loc : Int} {test : Expr} {forms : List Expr} {limit count : Nat}
  {m n tested done last : Machine} {halt : Halt}

theorem discard_of_ok {form value : Expr} (evaluated : ev form m = .ok value n) :
    discard (ev form) m = .ok () n :=
  bind_of_ok evaluated

theorem Sequence.forM_eq (passed : Sequence ev forms m n) :
    (forms.forM fun form => discard (ev form)) m = .ok () n := by
  induction passed with
  | nil => rfl
  | cons evaluated _ ih => exact (bind_of_ok (discard_of_ok evaluated)).trans ih

theorem Sequence.forM_eq_error {before later : List Expr} {form : Expr}
    (passed : Sequence ev before m n) (failed : ev form n = .error halt last) :
    ((before ++ form :: later).forM fun form => discard (ev form)) m = .error halt last := by
  induction passed with
  | nil =>
    have discarded : discard (ev form) _ = .error halt last := bind_of_error failed
    exact bind_of_error discarded
  | cons evaluated _ ih => exact (bind_of_ok (discard_of_ok evaluated)).trans (ih failed)

/-- Forms are all evaluated, or up to the first one that fails. -/
theorem sequence_or_fails (ev : Evaluator) (forms : List Expr) (m : Machine) :
    (∃ n, Sequence ev forms m n) ∨ ∃ before form later n halt last,
      forms = before ++ form :: later ∧ Sequence ev before m n ∧ ev form n = .error halt last := by
  induction forms generalizing m with
  | nil => exact .inl ⟨m, .nil⟩
  | cons form rest ih =>
    cases evaluated : ev form m with
    | error halt last => exact .inr ⟨[], form, rest, m, halt, last, rfl, .nil, evaluated⟩
    | ok value n =>
      rcases ih n with
        ⟨last, passed⟩ | ⟨before, failing, later, reached, halt, last, rfl, passed, failed⟩
      · exact .inl ⟨last, .cons evaluated passed⟩
      · exact .inr ⟨form :: before, failing, later, reached, halt, last, rfl,
          .cons evaluated passed, failed⟩

theorem Tests.holdsNow_eq {truth : Bool} (tests : Tests ev test m truth n) :
    Form.holdsNow ev test m = .ok truth n := by
  obtain ⟨value, evaluated, held⟩ := tests
  rw [Form.holdsNow, bind_of_ok evaluated, Expr.truth?_eq_some_iff.2 held]
  rfl

theorem holdsNow_of_unsupported {value : Expr} (evaluated : ev test m = .ok value n)
    (unsupported : ∀ truth, ¬value.CountsAs truth) :
    Form.holdsNow ev test m = .error (.error ⟨.badCondition .loop value.kind, test.loc⟩) n := by
  rw [Form.holdsNow, bind_of_ok evaluated, Expr.truth?_eq_none_iff.2 unsupported]
  rfl

theorem loopUpTo_of_false (tests : Tests ev test m false n) :
    loopUpTo ev loc test forms limit m = .ok (.boolean noLoc false) n := by
  have ended : Form.repeatWhile (Form.holdsNow ev test) (forms.forM fun form => discard (ev form))
      (fail .tooManyRounds loc) limit m = .ok () n := by
    cases limit <;> exact bind_of_ok tests.holdsNow_eq
  exact bind_of_ok ended

theorem loopUpTo_of_halt (halted : Form.holdsNow ev test m = .error halt n) :
    loopUpTo ev loc test forms limit m = .error halt n := by
  have ended : Form.repeatWhile (Form.holdsNow ev test) (forms.forM fun form => discard (ev form))
      (fail .tooManyRounds loc) limit m = .error halt n := by
    cases limit <;> exact bind_of_error halted
  exact bind_of_error ended

theorem loopUpTo_zero_of_true (tests : Tests ev test m true n) :
    loopUpTo ev loc test forms 0 m = .error (.error ⟨.tooManyRounds, loc⟩) n := by
  have ended : Form.repeatWhile (Form.holdsNow ev test) (forms.forM fun form => discard (ev form))
      (fail .tooManyRounds loc) 0 m = .error (.error ⟨.tooManyRounds, loc⟩) n :=
    bind_of_ok tests.holdsNow_eq
  exact bind_of_error ended

theorem loopUpTo_of_interrupted (tests : Tests ev test m true tested)
    (failed : (forms.forM fun form => discard (ev form)) tested = .error halt last) :
    loopUpTo ev loc test forms (limit + 1) m = .error halt last := by
  have ended : Form.repeatWhile (Form.holdsNow ev test) (forms.forM fun form => discard (ev form))
      (fail .tooManyRounds loc) (limit + 1) m = .error halt last :=
    (bind_of_ok tests.holdsNow_eq).trans (bind_of_error failed)
  exact bind_of_error ended

theorem loopUpTo_of_round (tests : Tests ev test m true tested)
    (passed : Sequence ev forms tested done) :
    loopUpTo ev loc test forms (limit + 1) m = loopUpTo ev loc test forms limit done := by
  have continued : Form.repeatWhile (Form.holdsNow ev test)
      (forms.forM fun form => discard (ev form)) (fail .tooManyRounds loc) (limit + 1) m =
      Form.repeatWhile (Form.holdsNow ev test) (forms.forM fun form => discard (ev form))
        (fail .tooManyRounds loc) limit done :=
    (bind_of_ok tests.holdsNow_eq).trans (bind_of_ok passed.forM_eq)
  simp only [loopUpTo, Bind.bind, EStateM.bind, continued]

/-- Rounds use up the limit one by one. -/
theorem Rounds.loopUpTo_eq (rounds : Rounds ev test forms count m n) :
    loopUpTo ev loc test forms (limit + count) m = loopUpTo ev loc test forms limit n := by
  induction rounds with
  | zero => rfl
  | succ tests passed _ ih => rw [← Nat.add_assoc, loopUpTo_of_round tests passed, ih]

/-- A loop does what the rounds tell. -/
theorem LoopEnds.settle_eq {outcome : Outcome}
    (ends : LoopEnds ev loc test forms limit m outcome last) :
    settle (loopUpTo ev loc test forms limit) m = (outcome, last) := by
  cases ends with
  | finished within rounds tests =>
    obtain ⟨left, rfl⟩ := Nat.exists_eq_add_of_le' within
    rw [settle, rounds.loopUpTo_eq, loopUpTo_of_false tests]
  | exceeded rounds tests =>
    rw [settle, ← Nat.zero_add limit, rounds.loopUpTo_eq, loopUpTo_zero_of_true tests]
  | unsupported within rounds evaluated none =>
    obtain ⟨left, rfl⟩ := Nat.exists_eq_add_of_le' within
    rw [settle, rounds.loopUpTo_eq, loopUpTo_of_halt (holdsNow_of_unsupported evaluated none)]
  | failed fails =>
    cases fails with
    | test within rounds failed =>
      obtain ⟨left, rfl⟩ := Nat.exists_eq_add_of_le' within
      rw [settle, rounds.loopUpTo_eq, loopUpTo_of_halt (bind_of_error failed)]
    | form within rounds tests split passed failed =>
      subst split
      obtain ⟨left, rfl⟩ := Nat.exists_eq_add_of_le' within
      rw [settle, ← Nat.succ_add_eq_add_succ, rounds.loopUpTo_eq,
        loopUpTo_of_interrupted tests (passed.forM_eq_error failed)]

/-- One more round before an end, where one more is allowed. -/
theorem LoopEnds.later {outcome : Outcome} (tests : Tests ev test m true tested)
    (passed : Sequence ev forms tested done)
    (ends : LoopEnds ev loc test forms limit done outcome last) :
    LoopEnds ev loc test forms (limit + 1) m outcome last := by
  cases ends with
  | finished within rounds false =>
    exact .finished (Nat.succ_le_succ within) (.succ tests passed rounds) false
  | exceeded rounds true => exact .exceeded (.succ tests passed rounds) true
  | unsupported within rounds evaluated none =>
    exact .unsupported (Nat.succ_le_succ within) (.succ tests passed rounds) evaluated none
  | failed fails =>
    cases fails with
    | test within rounds failed =>
      exact .failed (.test (Nat.succ_le_succ within) (.succ tests passed rounds) failed)
    | form within rounds true split before failed =>
      exact .failed (.form (Nat.succ_lt_succ within) (.succ tests passed rounds) true split before
        failed)

/-- Unless its first test comes out true, a loop ends with it. -/
theorem tests_or_ends (ev : Evaluator) (loc : Int) (test : Expr) (forms : List Expr) (limit : Nat)
    (m : Machine) : (∃ tested, Tests ev test m true tested) ∨
      ∃ outcome last, LoopEnds ev loc test forms limit m outcome last := by
  cases evaluated : ev test m with
  | error halt last => exact .inr ⟨_, last, .failed (.test (Nat.zero_le _) .zero evaluated)⟩
  | ok value tested =>
    cases truth : value.truth? with
    | none =>
      have unsupported := Expr.truth?_eq_none_iff.1 truth
      exact .inr ⟨_, tested, .unsupported (Nat.zero_le _) .zero evaluated unsupported⟩
    | some holds =>
      have counts := Expr.truth?_eq_some_iff.1 truth
      cases holds with
      | true => exact .inl ⟨tested, value, evaluated, counts⟩
      | false =>
        exact .inr ⟨_, tested, .finished (Nat.zero_le _) .zero ⟨value, evaluated, counts⟩⟩

/-- Every loop ends in one of the ways: by induction on the limit, one round at a time. -/
theorem exists_loopEnds (ev : Evaluator) (loc : Int) (test : Expr) (forms : List Expr)
    (limit : Nat) (m : Machine) :
    ∃ outcome last, LoopEnds ev loc test forms limit m outcome last := by
  induction limit generalizing m with
  | zero =>
    rcases tests_or_ends ev loc test forms 0 m with ⟨tested, tests⟩ | ends
    · exact ⟨_, tested, .exceeded .zero tests⟩
    · exact ends
  | succ limit ih =>
    rcases tests_or_ends ev loc test forms (limit + 1) m with ⟨tested, tests⟩ | ends
    · rcases sequence_or_fails ev forms tested with
        ⟨done, passed⟩ | ⟨before, form, later, reached, halt, last, split, passed, failed⟩
      · obtain ⟨outcome, last, ends⟩ := ih done
        exact ⟨outcome, last, ends.later tests passed⟩
      · exact ⟨_, last, .failed (.form (Nat.succ_pos _) .zero tests split passed failed)⟩
    · exact ends

/-- What fails inside a loop fails at one of the nodes there. -/
theorem RoundFails.exists_node {tracing : Bool} {level : Int} {error : EvalError}
    (fails : RoundFails (eval tracing level) test forms limit m (.error error) last) :
    ∃ node ∈ Expr.insideAll (test :: forms), node.loc = error.loc := by
  have located {e : Expr} {n last : Machine} (inside : e ∈ test :: forms)
      (failed : eval tracing level e n = .error (.error error) last) :
      ∃ node ∈ Expr.insideAll (test :: forms), node.loc = error.loc := by
    obtain ⟨node, among, located⟩ := loc_of_evalTop (evalTop_eq_error.2 ⟨last, failed⟩)
    exact ⟨node, Expr.nodes_subset_insideAll inside among, located.symm⟩
  cases fails with
  | test _ _ failed => exact located List.mem_cons_self failed
  | form _ _ _ split _ failed => exact located (by simp [split]) failed

end

/-- A loop below the depth limit ends in exactly one of the ways there are, on the machine that the
evaluations told of there lead to. It is false if, after any number of rounds up to the limit, the
test comes out false. It goes through too many rounds if the test comes out true once more after
the last round allowed; and it ends in such an error for no other reason but that something inside
does so, which takes a location there that is the loop's own. -/
theorem loop_runs_rounds (tracing : Bool) {level : Int} (below : level < maxDepth)
    (loc headLoc : Int) (test : Expr) (forms : List Expr) (m : Machine) :
    let list := Expr.list loc (.symbol headLoc (bytes "while") :: test :: forms)
    let ev := eval tracing (level + 1)
    let start := (Deed.start level list).replay tracing m
    let result := evalTop tracing level list m
    let exceeded := EvalError.mk .tooManyRounds loc
    maxRounds = 1000000 ∧ exceeded.message = bytes "while exceeded 1000000 iterations" ∧
    ∃ last, result.2 = (Deed.finish level list result.1).replay tracing last ∧
      LoopEnds ev loc test forms maxRounds start result.1 last ∧
      (∀ outcome last', LoopEnds ev loc test forms maxRounds start outcome last' →
        outcome = result.1 ∧ last' = last) ∧
      (result.1 = .ok (.boolean noLoc false) ↔ ∃ count ≤ maxRounds, ∃ n,
        Rounds ev test forms count start n ∧ Tests ev test n false last) ∧
      (result.1 = .error (.error exceeded) ↔
        (∃ n, Rounds ev test forms maxRounds start n ∧ Tests ev test n true last) ∨
          RoundFails ev test forms maxRounds start (.error exceeded) last) ∧
      ((∀ node ∈ Expr.insideAll (test :: forms), node.loc ≠ loc) →
        ¬ RoundFails ev test forms maxRounds start (.error exceeded) last) := by
  intro list ev start result exceeded
  obtain ⟨outcome, last, ends⟩ := exists_loopEnds ev loc test forms maxRounds start
  have settled {outcome : Outcome} {last : Machine}
      (ends : LoopEnds ev loc test forms maxRounds start outcome last) :
      settle (Builtin.loop.apply ev loc (test :: forms)) start = (outcome, last) := ends.settle_eq
  have called : result = (outcome, (Deed.finish level list outcome).replay tracing last) :=
    evalTop_call below .loop nofun rfl (settled ends)
  have unique (outcome' : Outcome) (last' : Machine)
      (ends' : LoopEnds ev loc test forms maxRounds start outcome' last') :
      outcome' = outcome ∧ last' = last :=
    Prod.mk.inj ((settled ends').symm.trans (settled ends))
  rw [called]
  refine ⟨rfl, show Fault.message .tooManyRounds = _ by decide, last, rfl, ends, unique, ?_, ?_, ?_⟩
  · constructor
    · rintro rfl
      cases ends with
      | finished within rounds tests => exact ⟨_, within, _, rounds, tests⟩
    · rintro ⟨count, within, n, rounds, tests⟩
      exact (unique _ _ (.finished within rounds tests)).1.symm
  · show outcome = .error (.error ⟨.tooManyRounds, loc⟩) ↔ _
    constructor
    · rintro rfl
      cases ends with
      | exceeded rounds tests => exact .inl ⟨_, rounds, tests⟩
      | failed fails => exact .inr fails
    · rintro (⟨n, rounds, tests⟩ | fails)
      · exact (unique _ _ (.exceeded rounds tests)).1.symm
      · exact (unique _ _ (.failed fails)).1.symm
  · intro apart fails
    obtain ⟨node, inside, located⟩ := fails.exists_node
    exact apart node inside located

/-- `(while x (set x x))` goes through the last round allowed when `x` is true, and then tests once
more. -/
theorem loop_runs_rounds_exceeded :
    let x := bytes "x"
    let test := Expr.symbol 7 x
    let set := Expr.list 9 [.symbol 10 (bytes "set"), .symbol 14 x, .symbol 16 x]
    let e := Expr.list 0 [.symbol 1 (bytes "while"), test, set]
    let m : Machine := { scopes := [Frame.empty.set x (.string noLoc (bytes "a"))] }
    (0 : Int) < maxDepth ∧ Rounds (eval false 1) test [set] 1000000 m m ∧
      evalTop false 0 e m = (.error (.error ⟨.tooManyRounds, 0⟩), m) := by
  intro x test set e m
  have below : (0 : Int) < maxDepth := by decide
  have tests : Tests (eval false 1) test m true m :=
    ⟨.string noLoc (bytes "a"), rfl, .nonempty (by decide)⟩
  have rounds (count : Nat) : Rounds (eval false 1) test [set] count m m := by
    induction count with
    | zero => exact .zero
    | succ count ih => exact .succ tests (.cons rfl .nil) ih
  obtain ⟨-, -, last, left, -, unique, -, exceeded, -⟩ :=
    loop_runs_rounds false below 0 1 test [set] m
  have same : m = last := (unique _ _ (.exceeded (rounds maxRounds) tests)).2
  have outcome := exceeded.2 (.inl ⟨m, rounds maxRounds, same ▸ tests⟩)
  rw [outcome, ← same] at left
  exact ⟨below, rounds 1000000, Prod.ext outcome left⟩

end Sketch
