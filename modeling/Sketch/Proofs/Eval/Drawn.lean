import Sketch.Proofs.Eval.Lasting
import Sketch.Session

/-! What is drawn is drawn in whole shapes. The events of any evaluation follow a grammar in which
the calls of a shape stand together, in the colours of the moment; as the grammar is closed under
appending, arguments that draw themselves and errors in the middle of a call do it no harm. -/
namespace Sketch

/-- The calls that one shape consists of, in the colours of the canvas it is drawn on. -/
inductive Shape (canvas : Canvas) : List DrawCall → Prop where
  | rect (x y w h : Float) : Shape canvas
      ([.beginPath, .rect x y w h]
        ++ (if canvas.fill = noColour then [] else [.apply .fill canvas.fill])
        ++ if canvas.stroke = noColour then [] else [.apply .stroke canvas.stroke])
  | line (x₁ y₁ x₂ y₂ : Float) : Shape canvas
      ([.beginPath, .moveTo x₁ y₁, .lineTo x₂ y₂]
        ++ if canvas.stroke = noColour then [] else [.apply .stroke canvas.stroke])

/-- Events, oldest first, that lead from one canvas to another: whole shapes, and between them
changes of colour and traces. -/
inductive Drawn : Canvas → List Event → Canvas → Prop where
  | nil {canvas : Canvas} : Drawn canvas [] canvas
  | shape {canvas last : Canvas} {calls : List DrawCall} {rest : List Event}
      (whole : Shape canvas calls) (later : Drawn canvas rest last) :
      Drawn canvas (calls.map Event.draw ++ rest) last
  | ink {canvas last : Canvas} {ink : Ink} {colour : Bytes} {rest : List Event}
      (later : Drawn (canvas.setColour ink colour) rest last) :
      Drawn canvas (.ink ink colour :: rest) last
  | enter {canvas last : Canvas} {level : Int} {list : Expr} {rest : List Event}
      (later : Drawn canvas rest last) : Drawn canvas (.enter level list :: rest) last
  | leave {canvas last : Canvas} {level : Int} {outcome : Except EvalError Expr}
      {rest : List Event} (later : Drawn canvas rest last) :
      Drawn canvas (.leave level outcome :: rest) last

theorem Drawn.append {first middle last : Canvas} {front back : List Event}
    (drawn : Drawn first front middle) (later : Drawn middle back last) :
    Drawn first (front ++ back) last := by
  induction drawn with
  | nil => exact later
  | shape group _ ih =>
    rw [List.append_assoc]
    exact .shape group (ih later)
  | ink _ ih => exact .ink (ih later)
  | enter _ ih => exact .enter (ih later)
  | leave _ ih => exact .leave (ih later)

theorem Shape.colour_ne {canvas : Canvas} {calls : List DrawCall} (shape : Shape canvas calls)
    {ink : Ink} {colour : Bytes} (used : .apply ink colour ∈ calls) : colour ≠ noColour := by
  cases shape with
  | rect x y w h => grind
  | line x₁ y₁ x₂ y₂ => grind

theorem Drawn.colour_ne {first last : Canvas} {events : List Event}
    (drawn : Drawn first events last) {ink : Ink} {colour : Bytes}
    (used : .draw (.apply ink colour) ∈ events) : colour ≠ noColour := by
  induction drawn with
  | nil => cases used
  | shape group _ ih =>
    rcases List.mem_append.1 used with here | later
    · obtain ⟨call, member, same⟩ := List.mem_map.1 here
      cases same
      exact group.colour_ne member
    · exact ih later
  | ink _ ih | enter _ ih | leave _ ih => exact ih (by simpa using used)

/-- From one machine to a later one everything was drawn in whole shapes. -/
def Draws (a b : Machine) : Prop :=
  ∃ events, b.log = events.reverse ++ a.log ∧ Drawn a.canvas events b.canvas

theorem draws_draw {shape : Canvas → List DrawCall} (whole : ∀ canvas, Shape canvas (shape canvas))
    (m : Machine) : Draws m (after (draw shape) m) := by
  refine ⟨(shape m.canvas).map Event.draw, ?_, ?_⟩
  · rw [after_draw]
  · rw [after_draw]
    simpa using Drawn.shape (whole m.canvas) .nil

theorem lasting_draws : Lasting Draws where
  refl m := ⟨[], rfl, .nil⟩
  trans := by
    rintro a b c ⟨front, logged, drawn⟩ ⟨back, logged', drawn'⟩
    refine ⟨front ++ back, ?_, drawn.append drawn'⟩
    rw [logged', logged, List.reverse_append, List.append_assoc]
  exitScope drawn := drawn
  assign _ _ _ := ⟨[], rfl, .nil⟩
  setColour ink colour m := ⟨[.ink ink colour], rfl, .ink .nil⟩
  rect x y w h := draws_draw fun _ => .rect x y w h
  line x₁ y₁ x₂ y₂ := draws_draw fun _ => .line x₁ y₁ x₂ y₂
  enter m level list := ⟨[.enter level list], rfl, .enter .nil⟩
  leave m level outcome := ⟨[.leave level outcome], rfl, .leave .nil⟩

/-- One turn at a canvas: a program or a single expression is evaluated, or the scopes are changed
for the turns that follow. -/
inductive Turn where
  | run (tracing : Bool) (program : List Expr)
  | eval (tracing : Bool) (level : Int) (expr : Expr)
  | move (scopes : Scopes)

def Turn.take : Turn → Machine → Machine
  | .run tracing program, m => (Sketch.run tracing program m).2
  | .eval tracing level expr, m => (evalTop tracing level expr m).2
  | .move scopes, m => { m with scopes }

theorem Turn.draws (turn : Turn) (m : Machine) : Draws m (turn.take m) := by
  cases turn with
  | run tracing program => exact lasting_draws.run tracing program m
  | eval tracing level expr => exact lasting_draws.evalTop tracing level expr m
  | move scopes => exact ⟨[], rfl, .nil⟩

/-- The machine after all turns, failed ones included. -/
def takeTurns (turns : List Turn) (m : Machine) : Machine :=
  turns.foldl (fun m turn => turn.take m) m

theorem draws_takeTurns (turns : List Turn) (m : Machine) : Draws m (takeTurns turns m) := by
  induction turns generalizing m with
  | nil => exact lasting_draws.refl m
  | cons turn rest ih => exact lasting_draws.trans (turn.draws m) (ih _)

theorem drawn_execute (tracing : Bool) (source : Bytes) (m : Machine) :
    Drawn m.canvas (execute tracing source m).1.events (execute tracing source m).2.canvas := by
  unfold execute
  cases (read source).program with
  | error errors => exact .nil
  | ok program =>
    obtain ⟨events, logged, drawn⟩ := lasting_draws.run tracing program { m with log := [] }
    have oldestFirst : (run tracing program { m with log := [] }).2.log.reverse = events := by
      simp [logged]
    rw [← oldestFirst] at drawn
    exact drawn

theorem drawn_executions (tracing : Bool) (sources : List Bytes) (m : Machine) :
    Drawn m.canvas ((sources.mapM (execute tracing) m).1.flatMap Execution.events)
      (sources.mapM (execute tracing) m).2.canvas := by
  induction sources generalizing m with
  | nil => exact .nil
  | cons source rest ih =>
    rw [List.mapM_cons]
    exact (drawn_execute tracing source m).append (ih _)

/-- A call of a built-in with four numbers. -/
def fourNumbers (builtin : Builtin) (a b c d : Float) : Expr :=
  .list noLoc (.symbol noLoc builtin.name :: [a, b, c, d].map (.number noLoc))

/-- On any canvas, over any turns and over any sources, with whatever is bound and whether anything
fails, the events are whole shapes between changes of colour, each in the colours set last, and no
ink is used that is to leave nothing. A call with numbers does draw its shape. -/
theorem drawing_in_whole_shapes (m : Machine) :
    (∀ turns : List Turn, ∃ events, (takeTurns turns m).log = events.reverse ++ m.log ∧
      Drawn m.canvas events (takeTurns turns m).canvas ∧
      ∀ ink colour, .draw (.apply ink colour) ∈ events → colour ≠ noColour) ∧
    (∀ (tracing : Bool) (sources : List Bytes),
      Drawn m.canvas ((sources.mapM (execute tracing) m).1.flatMap Execution.events)
        (sources.mapM (execute tracing) m).2.canvas) ∧
    ∀ a b c d : Float,
      (run false [fourNumbers .rect a b c d] m).2.log =
        ((m.canvas.rect a b c d).map Event.draw).reverse ++ m.log ∧
      (run false [fourNumbers .line a b c d] m).2.log =
        ((m.canvas.line a b c d).map Event.draw).reverse ++ m.log := by
  refine ⟨fun turns => ?_, fun tracing sources => drawn_executions tracing sources m,
    fun a b c d => ⟨?_, ?_⟩⟩
  · obtain ⟨events, logged, drawn⟩ := draws_takeTurns turns m
    exact ⟨events, logged, drawn, fun _ _ used => drawn.colour_ne used⟩
  · exact congrArg Machine.log (after_draw (fun canvas => canvas.rect a b c d) m)
  · exact congrArg Machine.log (after_draw (fun canvas => canvas.line a b c d) m)

end Sketch
