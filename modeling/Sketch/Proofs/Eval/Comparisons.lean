import Mathlib.Data.List.Chain
import Sketch.Proofs.Eval.Arguments

/-! Chains of comparisons. All the arguments are evaluated first; then neighbours are compared from
the left, and the first two that are not numbers in the relation decide. -/
namespace Sketch

/-- What a relation says of two numbers. -/
def Relation.Orders : Relation → Float → Float → Prop
  | .greater, x, y => x > y
  | .greaterEq, x, y => x ≥ y
  | .less, x, y => x < y
  | .lessEq, x, y => x ≤ y

instance (rel : Relation) (x y : Float) : Decidable (rel.Orders x y) :=
  match rel with
  | .greater => inferInstanceAs (Decidable (x > y))
  | .greaterEq => inferInstanceAs (Decidable (x ≥ y))
  | .less => inferInstanceAs (Decidable (x < y))
  | .lessEq => inferInstanceAs (Decidable (x ≤ y))

/-- How a relation is written. -/
def Relation.sign : Relation → Bytes
  | .greater => bytes ">"
  | .greaterEq => bytes ">="
  | .less => bytes "<"
  | .lessEq => bytes "<="

theorem Relation.holds_iff {rel : Relation} {x y : Float} : rel.holds x y ↔ rel.Orders x y := by
  cases rel <;> exact decide_eq_true_iff

theorem Relation.name_comparison (rel : Relation) : (Builtin.comparison rel).name = rel.sign := by
  cases rel <;> rfl

def Expr.number? : Expr → Option Float
  | .number _ x => some x
  | .nothing | .string .. | .boolean .. | .symbol .. | .list .. => none

theorem Expr.eq_number {e : Expr} {x : Float} (found : e.number? = some x) :
    ∃ loc, e = .number loc x := by
  cases e <;> cases found
  exact ⟨_, rfl⟩

/-- Arguments, each with its value, whose values are numbers in the relation. -/
def Relation.Joins (rel : Relation) (left right : Expr × Expr) : Prop :=
  ∃ x y, left.2.number? = some x ∧ right.2.number? = some y ∧ rel.Orders x y

/-- How arguments that have these values compare. -/
inductive Decided (rel : Relation) (entries : List (Expr × Expr)) : Outcome → Prop where
  | holds : entries.IsChain rel.Joins → Decided rel entries (.ok (.boolean noLoc true))
  | fails {before later : List (Expr × Expr)} {left right : Expr × Expr} {x y : Float} :
    entries = before ++ left :: right :: later → (before ++ [left]).IsChain rel.Joins →
    left.2.number? = some x → right.2.number? = some y → ¬rel.Orders x y →
    Decided rel entries (.ok (.boolean noLoc false))
  | incomparable {before later : List (Expr × Expr)} {left right : Expr × Expr} :
    entries = before ++ left :: right :: later → (before ++ [left]).IsChain rel.Joins →
    left.2.number? = none ∨ right.2.number? = none →
    Decided rel entries (.error (.error ⟨.incomparable left.2.kind right.2.kind, left.1.loc⟩))

/-- How a comparison ends, which of its arguments are evaluated for it, and on which machine. -/
inductive Compares (ev : Evaluator) (rel : Relation) (args : List Expr) (m : Machine) :
    List Expr → Outcome → Machine → Prop where
  | decided {values : List Expr} {outcome : Outcome} {last : Machine} :
    Valued ev args values m last → Decided rel (args.zip values) outcome →
    Compares ev rel args m args outcome last
  | stopped {asked : List Expr} {halt : Halt} {last : Machine} :
    Stopped ev (fun _ _ outcome => outcome) 1 args m asked halt last →
    Compares ev rel args m asked (.error halt) last

section

variable {rel : Relation} {entries : List (Expr × Expr)} {left right : Expr × Expr}

theorem Decided.cons {outcome : Outcome} (joins : rel.Joins left right)
    (decided : Decided rel (right :: entries) outcome) :
    Decided rel (left :: right :: entries) outcome := by
  have further {before later : List (Expr × Expr)} {last next : Expr × Expr}
      (split : right :: entries = before ++ last :: next :: later)
      (chain : (before ++ [last]).IsChain rel.Joins) :
      (left :: before ++ [last]).IsChain rel.Joins := by
    refine chain.cons fun entry first => ?_
    cases before <;> cases split <;> cases first <;> exact joins
  cases decided with
  | holds chain => exact .holds (.cons_cons joins chain)
  | fails split chain first second differs =>
    exact .fails (congrArg (left :: ·) split) (further split chain) first second differs
  | incomparable split chain other =>
    exact .incomparable (congrArg (left :: ·) split) (further split chain) other

/-- Two values that are not numbers in the relation decide at once. -/
theorem joins_or_decided (rel : Relation) (left right : Expr × Expr)
    (later : List (Expr × Expr)) :
    rel.Joins left right ∨ ∃ outcome, Decided rel (left :: right :: later) outcome := by
  have single : ([] ++ [left]).IsChain rel.Joins := .singleton left
  cases first : left.2.number? with
  | none => exact .inr ⟨_, .incomparable rfl single (.inl first)⟩
  | some x =>
    cases second : right.2.number? with
    | none => exact .inr ⟨_, .incomparable rfl single (.inr second)⟩
    | some y =>
      by_cases ordered : rel.Orders x y
      · exact .inl ⟨x, y, first, second, ordered⟩
      · exact .inr ⟨_, .fails rfl single first second ordered⟩

theorem exists_decided (rel : Relation) (entries : List (Expr × Expr)) :
    ∃ outcome, Decided rel entries outcome := by
  match entries with
  | [] => exact ⟨_, .holds .nil⟩
  | [entry] => exact ⟨_, .holds (.singleton entry)⟩
  | left :: right :: later =>
    rcases joins_or_decided rel left right later with joins | decided
    · obtain ⟨outcome, decided⟩ := exists_decided rel (right :: later)
      exact ⟨outcome, decided.cons joins⟩
    · exact decided

theorem Course.chained_of_joins (joins : rel.Joins left right) (later : List (Expr × Expr)) :
    chained rel left.1 left.2 (right :: later) = chained rel right.1 right.2 later := by
  obtain ⟨x, y, first, second, ordered⟩ := joins
  obtain ⟨arg, leftValue⟩ := left
  obtain ⟨next, rightValue⟩ := right
  obtain ⟨leftLoc, rfl⟩ := Expr.eq_number first
  obtain ⟨rightLoc, rfl⟩ := Expr.eq_number second
  exact if_pos (Relation.holds_iff.2 ordered)

/-- Comparing neighbours from the left passes over a chain, to the pair behind it. -/
theorem Course.chained_of_isChain {first last : Expr × Expr} {between later : List (Expr × Expr)}
    (chain : (first :: between ++ [last]).IsChain rel.Joins) :
    chained rel first.1 first.2 (between ++ last :: later) = chained rel last.1 last.2 later := by
  induction between generalizing first with
  | nil => exact chained_of_joins (List.isChain_pair.1 chain) later
  | cons next between ih =>
    obtain ⟨joins, rest⟩ := List.isChain_cons_cons.1 chain
    rw [List.cons_append, chained_of_joins joins, ih rest]

theorem Course.chained_of_fails {x y : Float} (first : left.2.number? = some x)
    (second : right.2.number? = some y) (differs : ¬rel.Orders x y)
    (later : List (Expr × Expr)) : chained rel left.1 left.2 (right :: later) = pure false := by
  obtain ⟨arg, leftValue⟩ := left
  obtain ⟨next, rightValue⟩ := right
  obtain ⟨leftLoc, rfl⟩ := Expr.eq_number first
  obtain ⟨rightLoc, rfl⟩ := Expr.eq_number second
  exact if_neg (mt Relation.holds_iff.1 differs)

theorem Course.chained_of_incomparable (other : left.2.number? = none ∨ right.2.number? = none)
    (later : List (Expr × Expr)) : chained rel left.1 left.2 (right :: later) =
      fail (.incomparable left.2.kind right.2.kind) left.1.loc := by
  obtain ⟨arg, leftValue⟩ := left
  obtain ⟨next, rightValue⟩ := right
  cases leftValue <;> try rfl
  cases rightValue <;> try rfl
  simp [Expr.number?] at other

/-- Compares neighbours from the left. -/
def Course.chain (rel : Relation) : List (Expr × Expr) → Course Bool
  | (arg, left) :: rest => chained rel arg left rest
  | [] => stuck

theorem Course.chain_of_isChain {before later : List (Expr × Expr)} {last : Expr × Expr}
    (isChain : (before ++ [last]).IsChain rel.Joins) :
    chain rel (before ++ last :: later) = chained rel last.1 last.2 later := by
  cases before with
  | nil => rfl
  | cons first between => exact chained_of_isChain isChain

theorem Decided.asks {ev : Evaluator} {m : Machine} {outcome : Outcome}
    (decided : Decided rel entries outcome) (present : entries ≠ []) :
    (do return .boolean noLoc (← Course.chain rel entries) : Course Expr).Asks ev m [] outcome
      m := by
  cases decided with
  | holds isChain =>
    obtain ⟨before, last, rfl⟩ := (List.eq_nil_or_concat' entries).resolve_left present
    rw [Course.chain_of_isChain isChain]
    exact .done
  | fails split isChain first second differs =>
    rw [split, Course.chain_of_isChain isChain, Course.chained_of_fails first second differs]
    exact .done
  | incomparable split isChain other =>
    rw [split, Course.chain_of_isChain isChain, Course.chained_of_incomparable other]
    exact .halt

end

theorem Course.eval_eq_taken (e : Expr) : eval e = taken (fun outcome => outcome) e :=
  congrArg (ask e) (funext fun outcome => by cases outcome <;> rfl)

theorem Course.mapM_eval_eq_takenAll (index : Nat) (args : List Expr) :
    args.mapM eval = takenAll (fun _ _ outcome => outcome) index args :=
  calc args.mapM eval
      = ((args.zipIdx index).map Prod.fst).mapM eval := by rw [List.zipIdx_map_fst]
    _ = (args.zipIdx index).mapM fun entry => eval entry.1 := List.mapM_map
    _ = takenAll (fun _ _ outcome => outcome) index args :=
      mapM_eq_takenAll (fun e _ => eval_eq_taken e) index args

theorem Compares.asks {ev : Evaluator} {rel : Relation} {args asked : List Expr}
    {outcome : Outcome} {m last : Machine} (compares : Compares ev rel args m asked outcome last)
    (present : args ≠ []) (loc : Int) :
    (Course.apply loc (.comparison rel) args).Asks ev m asked outcome last := by
  have gathered : Course.apply loc (.comparison rel) args = (do
      let values ← Course.takenAll (fun _ _ outcome => outcome) 1 args
      return .boolean noLoc (← Course.chain rel (args.zip values))) := by
    rw [Course.apply, Course.comparison, Course.mapM_eval_eq_takenAll 1, bind_assoc]
    rfl
  rw [gathered]
  cases compares with
  | @decided values _ _ valued decided =>
    have zipped : args.zip values ≠ [] := by
      have length := valued.length_eq
      cases args <;> cases values <;> simp_all
    exact valued.asks.conclude (decided.asks zipped)
  | stopped stopped => exact stopped.asks.bind_error

theorem exists_compares (ev : Evaluator) (rel : Relation) (args : List Expr) (m : Machine) :
    ∃ asked outcome last, Compares ev rel args m asked outcome last := by
  rcases taken_or_stopped ev (fun _ _ outcome => outcome) 1 args m with
    ⟨values, last, valued⟩ | ⟨asked, halt, last, stopped⟩
  · obtain ⟨outcome, decided⟩ := exists_decided rel (args.zip values)
    exact ⟨args, outcome, last, .decided valued decided⟩
  · exact ⟨asked, _, last, .stopped stopped⟩

/-- Numbers are in the relation one after another if they are joined by it. -/
theorem isChain_joins_iff {rel : Relation} {entries : List (Expr × Expr)} {numbers : List Float}
    (all : entries.map (·.2.number?) = numbers.map some) :
    entries.IsChain rel.Joins ↔ numbers.IsChain rel.Orders := by
  let related (x y : Option Float) : Prop := ∃ a b, x = some a ∧ y = some b ∧ rel.Orders a b
  calc entries.IsChain rel.Joins
      ↔ (entries.map (·.2.number?)).IsChain related :=
        (List.isChain_map (R := related) _).symm
    _ ↔ numbers.IsChain rel.Orders := by
      rw [all, List.isChain_map]
      simp [related]

/-- Among numbers only, the comparison tells whether all neighbours are in the relation. -/
theorem Decided.of_numbers {rel : Relation} {entries : List (Expr × Expr)} {numbers : List Float}
    (all : entries.map (·.2.number?) = numbers.map some) :
    Decided rel entries (.ok (.boolean noLoc (decide (numbers.IsChain rel.Orders)))) := by
  have number {entry : Expr × Expr} (member : entry ∈ entries) : entry.2.number? ≠ none := by
    have mapped : entry.2.number? ∈ numbers.map some := all ▸ List.mem_map_of_mem member
    obtain ⟨x, -, same⟩ := List.mem_map.1 mapped
    simp [← same]
  by_cases chain : numbers.IsChain rel.Orders
  · rw [decide_eq_true chain]
    exact .holds ((isChain_joins_iff all).2 chain)
  · rw [decide_eq_false chain]
    obtain ⟨outcome, decided⟩ := exists_decided rel entries
    cases decided with
    | holds isChain => exact absurd ((isChain_joins_iff all).1 isChain) chain
    | fails split isChain first second differs => exact .fails split isChain first second differs
    | incomparable split _ other =>
      rcases other with missing | missing
      · exact absurd missing (number (by simp [split]))
      · exact absurd missing (number (by simp [split]))

/-- Below the depth limit, a comparison evaluates its arguments from the left, fails if one of them
fails, and does nothing else. The values are then compared up to the first two neighbours that are
not numbers in the relation: two numbers make the result false, anything else is an error at the
left one. Without such neighbours the result is true; so among numbers only, it tells whether all
neighbours are in the relation. -/
theorem comparison_decided_by_first_pair (tracing : Bool) {level : Int} (below : level < maxDepth)
    (rel : Relation) {args : List Expr} (several : 2 ≤ args.length) (loc headLoc : Int)
    (m : Machine) :
    let list := Expr.list loc (.symbol headLoc rel.sign :: args)
    let ev := eval tracing (level + 1)
    let start := (Deed.start level list).replay tracing m
    (∃ asked outcome last, Compares ev rel args start asked outcome last) ∧
    (∀ asked outcome last, Compares ev rel args start asked outcome last →
      OnlyEvaluates tracing level list m asked outcome last) ∧
    (∀ values (numbers : List Float) last, Valued ev args values start last →
      values.map Expr.number? = numbers.map some →
      (evalTop tracing level list m).1 =
        .ok (.boolean noLoc (decide (numbers.IsChain rel.Orders)))) ∧
    ∀ left right, Fault.message (.incomparable left right) =
      bytes "Comparison requires numbers, got " ++ left.name ++ bytes " and " ++ right.name := by
  rw [← rel.name_comparison]
  intro list ev start
  have present : args ≠ [] :=
    List.ne_nil_of_length_pos (Nat.lt_of_lt_of_le Nat.zero_lt_two several)
  have only (asked : List Expr) (outcome : Outcome) (last : Machine)
      (compares : Compares ev rel args start asked outcome last) :
      OnlyEvaluates tracing level list m asked outcome last :=
    onlyEvaluates_of_asks below (.comparison rel) nofun (decide_eq_true several)
      (compares.asks present loc)
  refine ⟨exists_compares ev rel args start, only, fun values numbers last valued all => ?_,
    fun _ _ => rfl⟩
  have zipped : (args.zip values).map (·.2.number?) = numbers.map some :=
    calc (args.zip values).map (·.2.number?)
        = ((args.zip values).map Prod.snd).map Expr.number? := by rw [List.map_map]; rfl
      _ = numbers.map some := by rw [List.map_snd_zip valued.length_eq.le, all]
  exact congrArg Prod.fst (only _ _ _ (.decided valued (.of_numbers zipped))).result

/-- In `(< 2 1 "a" (fill "red"))` the numbers decide, though all is evaluated and the last argument
paints; in `(< 1 2 "a" 0)` the text comes first. `(> 1 2)` and `(<= 2 1)` are false, and
`(>= 2 2 1)` is true. -/
theorem comparison_decided_by_first_pair_text :
    let text := Expr.string 7 (bytes "a")
    let fill := Expr.list 11 [.symbol 12 (bytes "fill"), .string 17 (bytes "red")]
    let compare (sign : String) (args : List Expr) := Expr.list 0 (.symbol 1 (bytes sign) :: args)
    let falling := [.number 3 2, .number 5 1, text, fill]
    let rising := [.number 3 1, .number 5 2, text, .number 11 0]
    let numbers (xs : List Float) := xs.map (Expr.number 3)
    let m : Machine := { scopes := [] }
    let painted := after (setColour .fill (bytes "red")) m
    (0 : Int) < maxDepth ∧ 2 ≤ falling.length ∧ 2 ≤ rising.length ∧
      evalTop false 0 (compare "<" falling) m = (.ok (.boolean noLoc false), painted) ∧
      evalTop false 0 (compare "<" rising) m =
        (.error (.error ⟨.incomparable .number .string, 5⟩), m) ∧
      Fault.message (.incomparable .number .string) =
        bytes "Comparison requires numbers, got number and string" ∧
      (evalTop false 0 (compare ">" (numbers [1, 2])) m).1 = .ok (.boolean noLoc false) ∧
      (evalTop false 0 (compare ">=" (numbers [2, 2, 1])) m).1 = .ok (.boolean noLoc true) ∧
      (evalTop false 0 (compare "<=" (numbers [2, 1])) m).1 = .ok (.boolean noLoc false) := by
  intro text fill compare falling rising numbers m painted
  have below : (0 : Int) < maxDepth := by decide
  have compared (args : List Expr) (several : 2 ≤ args.length) :=
    (comparison_decided_by_first_pair false below .less several 0 1 m).2.1
  have valued : Valued (eval false 1) falling [.number 3 2, .number 5 1, text, .nothing] m
      painted := .cons rfl rfl (.cons rfl rfl (.cons rfl rfl (.cons rfl rfl .nil)))
  have valued' : Valued (eval false 1) rising rising m m :=
    .cons rfl rfl (.cons rfl rfl (.cons rfl rfl (.cons rfl rfl .nil)))
  let entry (loc : Int) (x : Float) := (Expr.number loc x, Expr.number loc x)
  have alone : ([] ++ [entry 3 2]).IsChain Relation.less.Joins := .singleton _
  have joined : ([entry 3 1] ++ [entry 5 2]).IsChain Relation.less.Joins :=
    .cons_cons ⟨1, 2, rfl, rfl, by decide⟩ (.singleton _)
  have fails : Decided .less (falling.zip [.number 3 2, .number 5 1, text, .nothing])
      (.ok (.boolean noLoc false)) := .fails rfl alone rfl rfl (by decide)
  have errs : Decided .less (rising.zip rising)
      (.error (.error ⟨.incomparable .number .string, 5⟩)) := .incomparable rfl joined (.inr rfl)
  have pair (x y : Float) : Valued (eval false 1) (numbers [x, y]) (numbers [x, y]) m m :=
    .cons rfl rfl (.cons rfl rfl .nil)
  have triple (x y z : Float) : Valued (eval false 1) (numbers [x, y, z]) (numbers [x, y, z]) m m :=
    .cons rfl rfl (.cons rfl rfl (.cons rfl rfl .nil))
  have ordered (rel : Relation) (xs : List Float) (several : 2 ≤ (numbers xs).length)
      (valued : Valued (eval false 1) (numbers xs) (numbers xs) m m) :
      (evalTop false 0 (.list 0 (.symbol 1 rel.sign :: numbers xs)) m).1 =
        .ok (.boolean noLoc (decide (xs.IsChain rel.Orders))) :=
    (comparison_decided_by_first_pair false below rel several 0 1 m).2.2.1 _ xs m valued
      (by simp [numbers, Expr.number?])
  exact ⟨below, by decide, by decide,
    (compared falling (by decide) _ _ _ (.decided valued fails)).result,
    (compared rising (by decide) _ _ _ (.decided valued' errs)).result, by decide,
    ordered .greater [1, 2] (by decide) (pair 1 2),
    ordered .greaterEq [2, 2, 1] (by decide) (triple 2 2 1),
    ordered .lessEq [2, 1] (by decide) (pair 2 1)⟩

end Sketch
