import Sketch.Proofs.Eval.Arguments

/-! Calculations. Whatever the operation and however many arguments it has, each argument gives a
number or stops the calculation, and the numbers are put together in the end. -/
namespace Sketch

namespace Operation

/-- How an operation is written. -/
def sign : Operation → Bytes
  | .add => bytes "+"
  | .subtract => bytes "-"
  | .multiply => bytes "*"
  | .divide => bytes "/"

/-- What numbers come to. -/
def total : Operation → List Float → Float
  | .add, [] | .subtract, [] => 0
  | .multiply, [] | .divide, [] => 1
  | .add, [x] => 0 + x
  | .subtract, [x] => 0 - x
  | .multiply, [x] => 1 * x
  | .divide, [x] => 1 / x
  | op, first :: rest => rest.foldl op.apply first

/-- The number that an argument gives, the one at `index` of `count`. A zero stops a division, but
not where it is to be divided by others. -/
def operand (op : Operation) (count index : Nat) (arg : Expr) : Outcome → Except Halt Float
  | .ok (.number _ x) =>
    if op = .divide ∧ x == 0 ∧ (2 ≤ index ∨ count = 1)
    then .error (.error ⟨.divisionByZero, arg.loc⟩) else .ok x
  | .ok value => .error (.error ⟨.notNumber (.arithmetic op) value.kind, arg.loc⟩)
  | .error halt => .error halt

theorem operand_number (op : Operation) {count index : Nat} (divides : 2 ≤ index ∨ count = 1)
    (arg : Expr) (loc : Int) (x : Float) : op.operand count index arg (.ok (.number loc x)) =
      if op == .divide && x == 0 then .error (.error ⟨.divisionByZero, arg.loc⟩) else .ok x := by
  simp [operand, divides]

theorem total_single (op : Operation) (x : Float) : op.total [x] = op.apply op.unit x := by
  cases op <;> rfl

theorem total_several (op : Operation) (first second : Float) (rest : List Float) :
    op.total (first :: second :: rest) = (second :: rest).foldl op.apply first := by
  cases op <;> rfl

end Operation

/-- How a calculation ends, which of its arguments are evaluated for it, and on which machine. -/
inductive Calculates (ev : Evaluator) (op : Operation) (args : List Expr) (m : Machine) :
    List Expr → Outcome → Machine → Prop where
  | finished {numbers : List Float} {last : Machine} :
    Taken ev (op.operand args.length) 1 args numbers m last →
    Calculates ev op args m args (.ok (.number noLoc (op.total numbers))) last
  | stopped {asked : List Expr} {halt : Halt} {last : Machine} :
    Stopped ev (op.operand args.length) 1 args m asked halt last →
    Calculates ev op args m asked (.error halt) last

namespace Course

/-- Only the first of several arguments may be zero in a division. -/
theorem numberOf_eq_taken (op : Operation) {count index : Nat} (divided : index = 1 ∧ count ≠ 1)
    (arg : Expr) : numberOf (.arithmetic op) arg = taken (op.operand count index arg) arg := by
  refine congrArg (Course.ask arg) (funext fun outcome => ?_)
  rcases outcome with halt | value
  · rfl
  · cases value with
    | number loc y => simp [Operation.operand, divided, Course.bind, Pure.pure]
    | nothing | string | boolean | symbol | list => rfl

theorem operate_eq_taken (op : Operation) (count : Nat) {index : Nat}
    (divides : 2 ≤ index ∨ count = 1) (x : Float) (arg : Expr) :
    operate op x arg = do return op.apply x (← taken (op.operand count index arg) arg) := by
  refine congrArg (Course.ask arg) (funext fun outcome => ?_)
  rcases outcome with halt | value
  · rfl
  · cases value with
    | number loc y =>
      simp only [op.operand_number divides]
      show (if op == .divide && y == 0 then fail .divisionByZero arg.loc
        else pure (op.apply x y) : Course Float) = _
      split <;> rfl
    | nothing | string | boolean | symbol | list => rfl

theorem foldlM_operate_eq_taken (op : Operation) (count : Nat) {index : Nat} (later : 2 ≤ index)
    (x : Float) (args : List Expr) : args.foldlM (operate op) x =
      do return (← takenAll (op.operand count) index args).foldl op.apply x := by
  induction args generalizing index x with
  | nil => rfl
  | cons arg rest ih =>
    rw [List.foldlM_cons, operate_eq_taken op count (.inl later), takenAll]
    simp only [bind_assoc, pure_bind, List.foldl_cons, ih (Nat.le_succ_of_le later)]

/-- A calculation takes a number from each argument, and puts them together in the end. -/
theorem arithmetic_eq_taken (op : Operation) (args : List Expr) :
    arithmetic op args =
      do return op.total (← takenAll (op.operand args.length) 1 args) := by
  match args with
  | [] => cases op <;> rfl
  | [arg] =>
    rw [arithmetic, operate_eq_taken op 1 (.inr rfl)]
    simp only [takenAll, bind_assoc, pure_bind, op.total_single]
    rfl
  | first :: second :: rest =>
    have several : (first :: second :: rest).length ≠ 1 := by simp
    rw [arithmetic, numberOf_eq_taken op ⟨rfl, several⟩]
    · simp only [foldlM_operate_eq_taken op (first :: second :: rest).length (Nat.le_refl 2),
        takenAll, bind_assoc, pure_bind, op.total_several]
    · simp

end Course

section

variable {ev : Evaluator} {op : Operation} {args asked : List Expr} {outcome : Outcome}
  {m last : Machine}

theorem Calculates.asks (calculates : Calculates ev op args m asked outcome last) (loc : Int) :
    (Course.apply loc (.arithmetic op) args).Asks ev m asked outcome last := by
  rw [Course.apply, Course.arithmetic_eq_taken]
  cases calculates with
  | finished taken => exact (taken.asks.map _).map _
  | stopped stopped => exact stopped.asks.bind_error.bind_error

end

end Sketch
