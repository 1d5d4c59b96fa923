import Sketch.Proofs.Eval.Related
import Sketch.Proofs.Expr.Relocate
import Sketch.Session

/-! Where expressions stand does not matter to their evaluation. Moved to other places, in scopes
whose values come from other places, an expression does the same: locations show up in the results
and in errors, and nothing else depends on them. -/
namespace Sketch

namespace Frame

/-- The same names, bound to other values. -/
def mapValues (g : Expr → Expr) (f : Frame) : Frame where
  entries := f.entries.map (Prod.map id g)
  sorted := List.pairwise_map.2 f.sorted

theorem insert_mapValues (g : Expr → Expr) (name : Bytes) (value : Expr)
    (entries : List (Bytes × Expr)) :
    (insert name value entries).map (Prod.map id g) =
      insert name (g value) (entries.map (Prod.map id g)) := by
  fun_induction insert name value entries with
  | case1 => rfl
  | case2 key old rest less => simp [insert, less]
  | case3 old rest notLess => simp [insert]
  | case4 key old rest notLess differs ih =>
    simp only [List.map_cons, Prod.map_apply, id, insert, if_neg notLess, if_neg differs, ih]

theorem mapValues_set (g : Expr → Expr) (f : Frame) (name : Bytes) (value : Expr) :
    (f.set name value).mapValues g = (f.mapValues g).set name (g value) := by
  simp only [mapValues, set, mk.injEq]
  exact insert_mapValues ..

theorem names_mapValues (g : Expr → Expr) (f : Frame) : (f.mapValues g).names = f.names := by
  simp [names, mapValues]

theorem find?_mapValues (g : Expr → Expr) (f : Frame) (name : Bytes) :
    (f.mapValues g).find? name = (f.find? name).map g := by
  obtain ⟨entries, sorted⟩ := f
  simp only [find?, mapValues]
  clear sorted
  induction entries with
  | nil => rfl
  | cons entry rest ih =>
    obtain ⟨key, value⟩ := entry
    simp only [List.map_cons, Prod.map, id, lookup_cons_eq_ite, ih]
    split <;> rfl

end Frame

namespace Scopes

/-- Scopes whose values have no locations. -/
def bare (scopes : Scopes) : Scopes := scopes.map (Frame.mapValues Expr.bare)

theorem names_bare (scopes : Scopes) : scopes.bare.map Frame.names = scopes.map Frame.names := by
  simp [bare, Frame.names_mapValues, Function.comp_def]

theorem bare_setAt (scopes : Scopes) (index : Nat) (name : Bytes) (value : Expr) :
    (scopes.setAt index name value).bare = scopes.bare.setAt index name value.bare := by
  induction scopes generalizing index with
  | nil => simp [bare, setAt]
  | cons f rest ih =>
    have bare_cons (f : Frame) (rest : Scopes) :
        bare (f :: rest) = f.mapValues Expr.bare :: bare rest := rfl
    cases index with
    | zero => rw [setAt_zero, bare_cons, bare_cons, setAt_zero, Frame.mapValues_set]
    | succ index => rw [setAt_succ, bare_cons, bare_cons, setAt_succ, ih]

theorem find?_bare (scopes : Scopes) (name : Bytes) :
    find? scopes.bare name = (find? scopes name).map Expr.bare := by
  simp only [find?, bare, List.findSome?_map, List.map_findSome?, Function.comp_def,
    Frame.find?_mapValues]

theorem lookup_bare (scopes : Scopes) (name : Bytes) :
    lookup scopes.bare name = (lookup scopes name).bare := by
  rw [lookup, lookup, find?_bare]
  cases find? scopes name <;> rfl

theorem owner?_bare (scopes : Scopes) (name : Bytes) : owner? scopes.bare name = owner? scopes name :=
  owner?_congr scopes.names_bare name

end Scopes

namespace Event

/-- An event without the locations of what it is about. -/
def bare : Event → Event
  | .enter level list => .enter level list.bare
  | .leave level (.ok value) => .leave level (.ok value.bare)
  | .leave level (.error e) => .leave level (.error { e with loc := noLoc })
  | .ink which colour => .ink which colour
  | .draw call => .draw call

theorem line_bare (event : Event) : event.bare.line = event.line := by
  cases event with
  | enter level list => exact congrArg (traceLine level ">>> ") (Expr.text_relocate _ list)
  | leave level outcome =>
    cases outcome with
    | ok value => exact congrArg (traceLine level "<<< ") (Expr.text_relocate _ value)
    | error e => rfl
  | ink | draw => rfl

theorem call?_bare (event : Event) : event.bare.call? = event.call? := by
  cases event with
  | leave level outcome => cases outcome <;> rfl
  | enter | ink | draw => rfl

theorem lines_eq_of_bare_eq {events events' : List Event}
    (same : events.map bare = events'.map bare) : events.map line = events'.map line := by
  have lines := congrArg (List.map line) same
  simpa only [List.map_map, Function.comp_def, line_bare] using lines

theorem calls_eq_of_bare_eq {events events' : List Event}
    (same : events.map bare = events'.map bare) :
    events.filterMap call? = events'.filterMap call? := by
  have calls := congrArg (List.filterMap call?) same
  simpa only [List.filterMap_map, Function.comp_def, call?_bare] using calls

end Event

/-- Machines that differ in locations only, with the events since the logs were `log` and `log'`. -/
structure Unlocated (log log' : List Event) (m n : Machine) : Prop where
  scopes : m.scopes.bare = n.scopes.bare
  canvas : m.canvas = n.canvas
  events : ∃ events events', m.log = events ++ log ∧ n.log = events' ++ log' ∧
    events.map Event.bare = events'.map Event.bare

namespace Unlocated

variable {log log' : List Event} {m n : Machine}

theorem record (same : Unlocated log log' m n) {event event' : Event}
    (alike : event.bare = event'.bare) : Unlocated log log' (m.record event) (n.record event') := by
  obtain ⟨events, events', first, second, bare⟩ := same.events
  refine { same with events := ⟨event :: events, event' :: events', ?_, ?_, ?_⟩ }
  · simp [Machine.record, first]
  · simp [Machine.record, second]
  · simp [alike, bare]

theorem draw (same : Unlocated log log' m n) (shape : Canvas → List DrawCall) :
    Unlocated log log' (after (Sketch.draw shape) m) (after (Sketch.draw shape) n) := by
  obtain ⟨events, events', first, second, bare⟩ := same.events
  rw [after_draw, after_draw]
  let drawn := ((shape m.canvas).map Event.draw).reverse
  refine { same with events := ⟨drawn ++ events, drawn ++ events', ?_, ?_, ?_⟩ }
  · rw [first, List.append_assoc]
  · rw [← same.canvas, second, List.append_assoc]
  · rw [List.map_append, List.map_append, bare]

theorem setColour (same : Unlocated log log' m n) (ink : Ink) (colour : Bytes) :
    Unlocated log log' (after (Sketch.setColour ink colour) m)
      (after (Sketch.setColour ink colour) n) := by
  have coloured : Unlocated log log' { m with canvas := m.canvas.setColour ink colour }
      { n with canvas := n.canvas.setColour ink colour } :=
    { same with canvas := congrArg (·.setColour ink colour) same.canvas }
  exact coloured.record rfl

theorem enterScope (same : Unlocated log log' m n) :
    Unlocated log log' m.enterScope n.enterScope :=
  { same with scopes := congrArg (Scopes.bare [.empty] ++ ·) same.scopes }

theorem exitScope (same : Unlocated log log' m n) : Unlocated log log' m.exitScope n.exitScope := by
  refine { same with scopes := ?_ }
  simpa [Scopes.bare, Machine.exitScope, Scopes.exit] using congrArg List.tail same.scopes

theorem assign (same : Unlocated log log' m n) (scope : Nat) (name : Bytes) {v w : Expr}
    (values : v.bare = w.bare) :
    Unlocated log log' (after (Sketch.assign scope name v) m)
      (after (Sketch.assign scope name w) n) := by
  refine { same with scopes := ?_ }
  calc (m.scopes.setAt scope name v).bare = m.scopes.bare.setAt scope name v.bare :=
        Scopes.bare_setAt ..
    _ = n.scopes.bare.setAt scope name w.bare := by rw [same.scopes, values]
    _ = (n.scopes.setAt scope name w).bare := (Scopes.bare_setAt ..).symm

theorem owner?_eq (same : Unlocated log log' m n) (name : Bytes) :
    Scopes.owner? m.scopes name = Scopes.owner? n.scopes name := by
  rw [← Scopes.owner?_bare, same.scopes, Scopes.owner?_bare]

end Unlocated

theorem Expr.matched_of_bare_eq {v w : Expr} (same : v.bare = w.bare) : v.Matched w := by
  cases v <;> cases w <;> simp [bare, relocate] at same
  case nothing.nothing => exact .nothing trivial
  case number.number =>
    subst same
    exact .number trivial
  case string.string =>
    subst same
    exact .string trivial
  case boolean.boolean =>
    subst same
    exact .boolean trivial
  case symbol.symbol =>
    subst same
    exact .symbol trivial
  case list.list =>
    have lengths := congrArg List.length same
    rw [relocateAll_eq_map, relocateAll_eq_map, List.length_map, List.length_map] at lengths
    exact .list trivial (List.forall₂_iff_get.2 ⟨lengths, fun _ _ _ => trivial⟩)

/-- Node by node, an expression is beside itself at other places. -/
theorem Expr.NullFree.paired_relocate {e : Expr} (clean : e.NullFree) (f : Int → Int) :
    Expr.Paired (fun l l' => l' = f l) (fun e e' => e.NullFree ∧ e' = e.relocate f) e
      (e.relocate f) := by
  cases e with
  | nothing => exact absurd rfl (clean _ Expr.nothing.mem_nodes_self)
  | number => exact .number rfl
  | string => exact .string rfl
  | boolean => exact .boolean rfl
  | symbol => exact .symbol rfl
  | list loc elements =>
    refine .list rfl ?_
    rw [relocateAll_eq_map, List.forall₂_map_right_iff]
    exact List.forall₂_same.2 fun element member => ⟨Expr.nullFree_list_iff.1 clean element member, rfl⟩

/-- An expression beside itself at other places. -/
def relocation (f : Int → Int) (log log' : List Event) : Simulation where
  loc l l' := l' = f l
  expr e e' := e.NullFree ∧ e' = e.relocate f
  value v w := v.bare = w.bare
  fault _ := True
  machine _ := Unlocated log log'
  paired := by
    rintro e _ ⟨clean, rfl⟩
    exact clean.paired_relocate f
  text := by
    rintro e _ ⟨-, rfl⟩
    exact (e.text_relocate f).symm
  matched := Expr.matched_of_bare_eq
  literal := by
    rintro e _ ⟨-, rfl⟩ _ _
    exact (e.bare_relocate f).symm
  truth _ _ := rfl
  nothing := rfl
  number _ := rfl
  string _ := rfl
  boolean _ := rfl
  faults _ := trivial
  lookup _ same := by rw [← Scopes.lookup_bare, same.scopes, Scopes.lookup_bare]
  enterScope same := same.enterScope
  exitScope same := same.exitScope
  bind name values _ same := same.assign 0 name values
  owner _ _ same := by rw [same.owner?_eq]
  assign _ _ chosen chosen' values _ same := by
    rw [same.owner?_eq, chosen'] at chosen
    cases chosen
    exact same.assign _ _ values
  setColour colour _ same := same.setColour _ colour
  rect _ _ _ _ _ same := same.draw _
  line _ _ _ _ _ same := same.draw _

theorem traceable_relocation (f : Int → Int) (log log' : List Event) :
    (relocation f log log').Traceable where
  deep := trivial
  enter level same alike := by
    obtain ⟨-, rfl⟩ := same
    exact alike.record (congrArg (Event.enter level) (Expr.bare_relocate f _).symm)
  leave level same alike := alike.record (congrArg (fun v => Event.leave level (.ok v)) same)
  error level same alike := alike.record rfl

/-- The same value up to locations, or the same error at the place that belongs to its own. -/
inductive Outcome.Relocated (f : Int → Int) : Outcome → Outcome → Prop where
  | ok {v w : Expr} (same : v.bare = w.bare) : Relocated f (.ok v) (.ok w)
  | error {fault : Fault} {loc : Int} :
      Relocated f (.error (.error ⟨fault, loc⟩)) (.error (.error ⟨fault, f loc⟩))

theorem relocated_evalTop (f : Int → Int) (tracing : Bool) (level : Int) {e : Expr}
    (clean : e.NullFree) {log log' : List Event} {m n : Machine} (same : Unlocated log log' m n) :
    Outcome.Relocated f (evalTop tracing level e m).1 (evalTop tracing level (e.relocate f) n).1 ∧
      Unlocated log log' (evalTop tracing level e m).2 (evalTop tracing level (e.relocate f) n).2 := by
  have ended := (traceable_relocation f log log').agree_evalWithin tracing
    (maxDepth - level).toNat level ⟨clean, rfl⟩ (k := 0) m n same
  unfold evalTop eval
  generalize evalWithin tracing (maxDepth - level).toNat level e m = r at ended
  generalize evalWithin tracing (maxDepth - level).toNat level (e.relocate f) n = r' at ended
  cases ended with
  | ok values same => exact ⟨.ok values, same⟩
  | error halts same =>
    cases halts with
    | error _ located =>
      cases located
      exact ⟨.error, same⟩
    | stuck missing => exact absurd rfl (missing.1 _ Expr.nothing.mem_nodes_self)

/-- Where an expression and the values bound around it come from makes no difference. Moved anywhere
and evaluated among the same values from anywhere, it has the same value or the same error, located
where its place was moved to; it makes the same calls and colour changes, shows the same trace, and
leaves the same canvas and the same scopes, up to locations. -/
theorem evalTop_relocate (f : Int → Int) (tracing : Bool) (level : Int) {e : Expr}
    (clean : e.NullFree) {m n : Machine} (scopes : m.scopes.bare = n.scopes.bare)
    (canvas : m.canvas = n.canvas) :
    Outcome.Relocated f (evalTop tracing level e m).1 (evalTop tracing level (e.relocate f) n).1 ∧
    (∃ events events', (evalTop tracing level e m).2.log = events ++ m.log ∧
      (evalTop tracing level (e.relocate f) n).2.log = events' ++ n.log ∧
      events.map Event.bare = events'.map Event.bare ∧
      events.filterMap Event.call? = events'.filterMap Event.call? ∧
      events.map Event.line = events'.map Event.line) ∧
    (evalTop tracing level e m).2.canvas = (evalTop tracing level (e.relocate f) n).2.canvas ∧
    (evalTop tracing level e m).2.scopes.bare =
      (evalTop tracing level (e.relocate f) n).2.scopes.bare := by
  have start : Unlocated m.log n.log m n := ⟨scopes, canvas, [], [], rfl, rfl, rfl⟩
  obtain ⟨outcome, same⟩ := relocated_evalTop f tracing level clean start
  obtain ⟨events, events', logged, logged', bare⟩ := same.events
  exact ⟨outcome, ⟨events, events', logged, logged', bare, Event.calls_eq_of_bare_eq bare,
    Event.lines_eq_of_bare_eq bare⟩, same.canvas, same.scopes⟩

/-- A value that was bound by another source makes no difference to the error, which moves along
with the expression. -/
theorem evalTop_relocate_behind :
    let m : Machine := { scopes := [Frame.empty.set (bytes "x") (.string 6 (bytes "red"))] }
    let n : Machine := { scopes := [Frame.empty.set (bytes "x") (.string 90 (bytes "red"))] }
    -- (set x (fill x))
    let e := Expr.list 0 [.symbol 1 (bytes "set"), .symbol 5 (bytes "x"),
      .list 7 [.symbol 8 (bytes "fill"), .symbol 13 (bytes "x")]]
    e.NullFree ∧ m.scopes.bare = n.scopes.bare ∧
      (evalTop true 0 e m).1 = .error (.error ⟨.missingValue, 7⟩) ∧
      (evalTop true 0 (e.relocate (· + 40)) n).1 = .error (.error ⟨.missingValue, 47⟩) ∧
      (evalTop true 0 e m).2.canvas = (evalTop true 0 (e.relocate (· + 40)) n).2.canvas := by
  intro m n e
  have clean : e.NullFree := by decide
  have scopes : m.scopes.bare = n.scopes.bare := rfl
  obtain ⟨-, -, canvas, -⟩ := evalTop_relocate (· + 40) true 0 clean scopes rfl
  exact ⟨clean, scopes, rfl, rfl, canvas⟩

end Sketch
