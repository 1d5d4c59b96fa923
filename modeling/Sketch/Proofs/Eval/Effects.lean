import Sketch.Proofs.Eval.Halting
import Sketch.Proofs.Eval.Visible

/-! An expression touches only what it mentions. It binds anew only names that one of its
assignments is written for, each in the innermost scope that holds it, and it uses the canvas only
if one of its lists is called by a drawing name. Nor does it read more than it mentions: where the
names in it show the same, it does the same, and the canvas matters only to one that draws. -/
namespace Sketch

namespace Expr

mutual
theorem mem_symbols_of_mem_inside {loc : Int} {name : Bytes} :
    ∀ {e : Expr}, .symbol loc name ∈ e.inside → name ∈ e.symbols
  | .list _ elements, member => by
    rw [inside] at member
    rw [symbols]
    exact mem_symbolsAll_of_mem_insideAll member

theorem mem_symbolsAll_of_mem_insideAll {loc : Int} {name : Bytes} :
    ∀ {elements : List Expr}, .symbol loc name ∈ insideAll elements → name ∈ symbolsAll elements
  | first :: rest, member => by
    rw [insideAll, List.mem_cons, List.mem_append] at member
    rw [symbolsAll, List.mem_append]
    rcases member with rfl | inner | later
    · exact .inl (by simp [symbols])
    · exact .inl (mem_symbols_of_mem_inside inner)
    · exact .inr (mem_symbolsAll_of_mem_insideAll later)
end

theorem mem_symbols_of_mem_nodes {e : Expr} {loc : Int} {name : Bytes}
    (member : .symbol loc name ∈ e.nodes) : name ∈ e.symbols := by
  rcases List.mem_cons.1 member with rfl | inner
  · simp [symbols]
  · exact mem_symbols_of_mem_inside inner

/-- The name that a list is headed by. -/
def head? : Expr → Option Bytes
  | .list _ (.symbol _ name :: _) => some name
  | _ => none

/-- The names that head the lists anywhere in an expression. -/
def heads (e : Expr) : List Bytes := e.nodes.filterMap head?

/-- The symbol that an assignment is written for. -/
def target? : Expr → Option Bytes
  | .list _ (.symbol _ head :: .symbol _ name :: _) =>
    if head = bytes "set" then some name else none
  | _ => none

/-- The names that the assignments anywhere in an expression are written for. -/
def assigned (e : Expr) : List Bytes := e.nodes.filterMap target?

/-- One of its lists is headed by a name that has to do with the canvas. -/
def Draws (e : Expr) : Prop :=
  ∃ name ∈ ["stroke", "fill", "noStroke", "noFill", "rect", "line"], bytes name ∈ e.heads

instance (e : Expr) : Decidable e.Draws :=
  inferInstanceAs (Decidable
    (∃ name ∈ ["stroke", "fill", "noStroke", "noFill", "rect", "line"], bytes name ∈ e.heads))

theorem mem_heads {e : Expr} {loc headLoc : Int} {name : Bytes} {args : List Expr}
    (member : .list loc (.symbol headLoc name :: args) ∈ e.nodes) : name ∈ e.heads :=
  List.mem_filterMap.2 ⟨_, member, rfl⟩

theorem mem_assigned {e : Expr} {loc headLoc at_ : Int} {name : Bytes} {rest : List Expr}
    (member : .list loc (.symbol headLoc (bytes "set") :: .symbol at_ name :: rest) ∈ e.nodes) :
    name ∈ e.assigned :=
  List.mem_filterMap.2 ⟨_, member, by simp [target?]⟩

theorem draws_of_colours {e : Expr} {ink : Ink}
    (headed : (Builtin.setInk ink).name ∈ e.heads ∨ (Builtin.clearInk ink).name ∈ e.heads) :
    e.Draws := by
  cases ink with
  | fill =>
    rcases headed with set | clear
    · exact ⟨"fill", by simp, set⟩
    · exact ⟨"noFill", by simp, clear⟩
  | stroke =>
    rcases headed with set | clear
    · exact ⟨"stroke", by simp, set⟩
    · exact ⟨"noStroke", by simp, clear⟩

theorem draws_of_shape {e : Expr}
    (headed : Builtin.rect.name ∈ e.heads ∨ Builtin.line.name ∈ e.heads) : e.Draws := by
  rcases headed with rect | line
  · exact ⟨"rect", by simp, rect⟩
  · exact ⟨"line", by simp, line⟩

theorem assigned_subset_symbols (e : Expr) : e.assigned ⊆ e.symbols := by
  intro name member
  obtain ⟨node, inner, target⟩ := List.mem_filterMap.1 member
  unfold target? at target
  split at target
  · next loc headLoc head at_ _ rest =>
    split at target
    · cases target
      have place : .symbol at_ name ∈ e.nodes :=
        nodes_subset_nodes inner (by simp [nodes, inside, insideAll])
      exact mem_symbols_of_mem_nodes place
    · cases target
  · cases target

end Expr

/-- What shows on the canvas, or in its colours. -/
def Event.marks : Event → Bool
  | .ink .. | .draw _ => true
  | .enter .. | .leave .. => false

namespace Scopes

/-- The binding of a name in one of the scopes, counted from the innermost. -/
def at? (scopes : Scopes) (index : Nat) (name : Bytes) : Option Expr :=
  scopes[index]?.bind (·.find? name)

@[simp] theorem at?_cons_zero (f : Frame) (rest : Scopes) (name : Bytes) :
    at? (f :: rest) 0 name = f.find? name := rfl

@[simp] theorem at?_cons_succ (f : Frame) (rest : Scopes) (index : Nat) (name : Bytes) :
    at? (f :: rest) (index + 1) name = at? rest index name := rfl

theorem at?_setAt_of_ne {scopes : Scopes} {index i : Nat} {name x : Bytes}
    (elsewhere : ¬ (i = index ∧ x = name)) (value : Expr) :
    at? (setAt scopes index name value) i x = at? scopes i x := by
  induction scopes generalizing index i with
  | nil => simp [setAt]
  | cons f rest ih =>
    cases index with
    | zero =>
      rw [setAt_zero]
      cases i with
      | zero =>
        have other : x ≠ name := fun same => elsewhere ⟨rfl, same⟩
        simp [Frame.find?_set, other]
      | succ i => rfl
    | succ index =>
      rw [setAt_succ]
      cases i with
      | zero => rfl
      | succ i => exact ih fun both => elsewhere ⟨congrArg (· + 1) both.1, both.2⟩

theorem find?_eq_at?_owner {scopes : Scopes} {name : Bytes} {index : Nat}
    (chosen : owner? scopes name = some index) : find? scopes name = at? scopes index name := by
  induction scopes generalizing index with
  | nil => simp [owner?] at chosen
  | cons f rest ih =>
    rw [owner?_cons] at chosen
    rw [find?_cons]
    split at chosen
    · next held =>
      cases chosen
      obtain ⟨value, found⟩ := Option.isSome_iff_exists.1 held
      simp [found]
    · next missing =>
      obtain ⟨outer, found, rfl⟩ := Option.map_eq_some_iff.1 chosen
      have unbound : f.find? name = none := by simpa [Frame.has] using missing
      rw [unbound, at?_cons_succ, ← ih found]
      rfl

/-- The scopes `now` are the scopes `before`, but for values of some names where these are owned. -/
structure Framed (names : List Bytes) (before now : Scopes) : Prop where
  names_eq : now.map Frame.names = before.map Frame.names
  owned : ∀ i x, at? now i x ≠ at? before i x → x ∈ names ∧ owner? before x = some i

namespace Framed

variable {names : List Bytes} {before now : Scopes}

theorem refl (names : List Bytes) (scopes : Scopes) : Framed names scopes scopes :=
  ⟨rfl, fun _ _ differs => absurd rfl differs⟩

theorem owner?_eq (framed : Framed names before now) (name : Bytes) :
    owner? now name = owner? before name :=
  owner?_congr framed.names_eq name

theorem setAt_owner (framed : Framed names before now) {name : Bytes} (member : name ∈ names)
    {index : Nat} (chosen : owner? now name = some index) (value : Expr) :
    Framed names before (setAt now index name value) := by
  refine ⟨(names_setAt_owner chosen value).trans framed.names_eq, fun i x differs => ?_⟩
  by_cases here : i = index ∧ x = name
  · obtain ⟨rfl, rfl⟩ := here
    exact ⟨member, (framed.owner?_eq x).symm.trans chosen⟩
  · rw [at?_setAt_of_ne here] at differs
    exact framed.owned i x differs

end Framed

/-- The same behind the innermost `k` scopes, which may be any. -/
inductive FramedIn (names : List Bytes) (before : Scopes) : Nat → Scopes → Prop where
  | outer : Framed names before now → FramedIn names before 0 now
  | inner : FramedIn names before k now → FramedIn names before (k + 1) (f :: now)

namespace FramedIn

variable {names : List Bytes} {before now : Scopes} {k : Nat}

theorem exit (framed : FramedIn names before (k + 1) now) : FramedIn names before k now.exit := by
  cases framed with
  | inner outer => exact outer

theorem bind (framed : FramedIn names before (k + 1) now) (name : Bytes) (value : Expr) :
    FramedIn names before (k + 1) (setAt now 0 name value) := by
  cases framed with
  | inner outer =>
    rw [setAt_zero]
    exact .inner outer

/-- An inner scope that holds the name shields the outer ones. -/
theorem assign (framed : FramedIn names before k now) {name : Bytes} (member : name ∈ names)
    {index : Nat} (chosen : owner? now name = some index) (value : Expr) :
    FramedIn names before k (setAt now index name value) := by
  induction framed generalizing index with
  | outer framed => exact .outer (framed.setAt_owner member chosen value)
  | @inner k now f outer ih =>
    rw [owner?_cons] at chosen
    split at chosen
    · cases chosen
      rw [setAt_zero]
      exact .inner outer
    · obtain ⟨index, owned, rfl⟩ := Option.map_eq_some_iff.1 chosen
      rw [setAt_succ]
      exact .inner (ih owned)

end FramedIn

end Scopes

/-- What evaluating parts of `e` may make of a machine, inside `k` scopes opened since `start`. -/
structure Confined (e : Expr) (start : Machine) (k : Nat) (m : Machine) : Prop where
  scopes : Scopes.FramedIn e.assigned start.scopes k m.scopes
  colours : ∀ ink, m.canvas.colour ink ≠ start.canvas.colour ink →
    (Builtin.setInk ink).name ∈ e.heads ∨ (Builtin.clearInk ink).name ∈ e.heads
  events : ∃ events, m.log = events ++ start.log ∧ ∀ event ∈ events, event.marks → e.Draws

theorem Canvas.colour_setColour_of_ne {ink other : Ink} (differs : other ≠ ink) (canvas : Canvas)
    (colour : Bytes) : (canvas.setColour ink colour).colour other = canvas.colour other := by
  cases ink <;> cases other <;> first | rfl | exact absurd rfl differs

namespace Confined

variable {e : Expr} {start m : Machine} {k : Nat}

theorem self (e : Expr) (m : Machine) : Confined e m 0 m :=
  ⟨.outer (.refl _ _), fun _ differs => absurd rfl differs, [], rfl, by simp⟩

theorem record (confined : Confined e start k m) {event : Event} (caused : event.marks → e.Draws) :
    Confined e start k (m.record event) := by
  obtain ⟨events, log, all⟩ := confined.events
  refine { confined with events := ⟨event :: events, ?_, List.forall_mem_cons.2 ⟨caused, all⟩⟩ }
  simp [Machine.record, log]

theorem draw (confined : Confined e start k m) (draws : e.Draws)
    (shape : Canvas → List DrawCall) : Confined e start k (after (Sketch.draw shape) m) := by
  obtain ⟨events, log, all⟩ := confined.events
  rw [after_draw]
  refine { confined with events := ⟨((shape m.canvas).map Event.draw).reverse ++ events, ?_, ?_⟩ }
  · rw [log, List.append_assoc]
  · exact List.forall_mem_append.2 ⟨fun _ _ _ => draws, all⟩

theorem setColour (confined : Confined e start k m) {ink : Ink}
    (headed : (Builtin.setInk ink).name ∈ e.heads ∨ (Builtin.clearInk ink).name ∈ e.heads)
    (colour : Bytes) : Confined e start k (after (Sketch.setColour ink colour) m) := by
  have coloured : Confined e start k { m with canvas := m.canvas.setColour ink colour } := by
    refine { confined with colours := fun other differs => ?_ }
    by_cases same : other = ink
    · rw [same]
      exact headed
    · simp only [Canvas.colour_setColour_of_ne same] at differs
      exact confined.colours other differs
  exact coloured.record fun _ => Expr.draws_of_colours headed

theorem enterScope (confined : Confined e start k m) : Confined e start (k + 1) m.enterScope :=
  { confined with scopes := .inner confined.scopes }

theorem exitScope (confined : Confined e start (k + 1) m) : Confined e start k m.exitScope :=
  { confined with scopes := confined.scopes.exit }

theorem assign (confined : Confined e start k m) {i : Nat} {name : Bytes} {value : Expr}
    (scopes : Scopes.FramedIn e.assigned start.scopes k (m.scopes.setAt i name value)) :
    Confined e start k (after (Sketch.assign i name value) m) :=
  { confined with scopes := scopes }

/-- One that does not draw leaves the canvas as it is. -/
theorem canvas_eq (confined : Confined e start k m) (blind : ¬ e.Draws) :
    m.canvas = start.canvas := by
  have kept (ink : Ink) : m.canvas.colour ink = start.canvas.colour ink := by
    by_contra differs
    exact blind (Expr.draws_of_colours (confined.colours ink differs))
  calc m.canvas = ⟨m.canvas.colour .fill, m.canvas.colour .stroke⟩ := rfl
    _ = start.canvas := by rw [kept, kept]; rfl

end Confined

/-- Two machines on which parts of `e` are evaluated side by side, each on its own canvas. -/
structure Beside (e : Expr) (a b : Machine) (k : Nat) (m n : Machine) : Prop where
  alike : Alike e.symbols a.log b.log k m { n with canvas := m.canvas }
  canvas : a.canvas = b.canvas → m.canvas = n.canvas
  confined : Confined e a k m
  confined' : Confined e b k n

namespace Beside

variable {e : Expr} {a b m n : Machine} {k : Nat}

theorem record (beside : Beside e a b k m n) {event : Event} (caused : event.marks → e.Draws) :
    Beside e a b k (m.record event) (n.record event) :=
  ⟨beside.alike.record event, beside.canvas, beside.confined.record caused,
    beside.confined'.record caused⟩

/-- An expression that draws sees the same canvas on both sides. -/
theorem draw (beside : Beside e a b k m n) (seen : e.Draws → a.canvas = b.canvas) (draws : e.Draws)
    (shape : Canvas → List DrawCall) :
    Beside e a b k (after (Sketch.draw shape) m) (after (Sketch.draw shape) n) := by
  have canvas := beside.canvas (seen draws)
  have alike := beside.alike.draw shape
  refine ⟨?_, fun _ => ?_, beside.confined.draw draws shape, beside.confined'.draw draws shape⟩
  · simp only [after_draw, ← canvas] at alike ⊢
    exact alike
  · simp only [after_draw]
    exact canvas

theorem setColour (beside : Beside e a b k m n) {ink : Ink}
    (headed : (Builtin.setInk ink).name ∈ e.heads ∨ (Builtin.clearInk ink).name ∈ e.heads)
    (colour : Bytes) :
    Beside e a b k (after (Sketch.setColour ink colour) m)
      (after (Sketch.setColour ink colour) n) :=
  ⟨beside.alike.setColour ink colour,
    fun same => congrArg (·.setColour ink colour) (beside.canvas same),
    beside.confined.setColour headed colour, beside.confined'.setColour headed colour⟩

theorem enterScope (beside : Beside e a b k m n) :
    Beside e a b (k + 1) m.enterScope n.enterScope :=
  ⟨beside.alike.enterScope, beside.canvas, beside.confined.enterScope, beside.confined'.enterScope⟩

theorem exitScope (beside : Beside e a b (k + 1) m n) :
    Beside e a b k m.exitScope n.exitScope :=
  ⟨beside.alike.exitScope, beside.canvas, beside.confined.exitScope, beside.confined'.exitScope⟩

end Beside

theorem mem_nodes_of_calls {e : Expr} {builtin : Builtin} {args args' : List Expr}
    (calls : Calls (fun x x' => x = x' ∧ x.nodes ⊆ e.nodes) builtin args args') :
    ∃ loc headLoc, .list loc (.symbol headLoc builtin.name :: args) ∈ e.nodes := by
  obtain ⟨l, l', h, h', -, inside⟩ := calls
  exact ⟨l, h, inside (Expr.mem_nodes_self _)⟩

theorem mem_heads_of_calls {e : Expr} {builtin : Builtin} {args args' : List Expr}
    (calls : Calls (fun x x' => x = x' ∧ x.nodes ⊆ e.nodes) builtin args args') :
    builtin.name ∈ e.heads := by
  obtain ⟨loc, headLoc, member⟩ := mem_nodes_of_calls calls
  exact Expr.mem_heads member

/-- Where no value is a symbol, only what an assignment is written for is assigned. -/
theorem mem_assigned_of_calls {e place x place' x' : Expr} {name : Bytes}
    (calls : Calls (fun x x' => x = x' ∧ x.nodes ⊆ e.nodes) .assignment [place, x] [place', x'])
    (designated : Designates (fun v w => v = w ∧ v.kind ≠ .symbol) place name) :
    name ∈ e.assigned := by
  obtain ⟨loc, headLoc, member⟩ := mem_nodes_of_calls calls
  rcases designated with ⟨placeLoc, rfl⟩ | ⟨_, _, _, plainValue⟩
  · exact Expr.mem_assigned member
  · exact absurd rfl plainValue

/-- Parts of `e` on two machines that show the same for its names, and the same canvas if it
draws. Values are as they are wherever only names matter. -/
def effects (e : Expr) (a b : Machine) (seen : e.Draws → a.canvas = b.canvas) : Simulation :=
  { visible e.symbols a.log b.log with
    expr x x' := x = x' ∧ x.nodes ⊆ e.nodes
    machine := Beside e a b
    paired := by
      rintro x _ ⟨rfl, inside⟩
      refine .self rfl ?_
      rintro l es rfl element member
      refine ⟨rfl, fun node inner => inside ?_⟩
      exact List.mem_cons_of_mem _ (Expr.nodes_subset_insideAll member inner)
    text same := congrArg Expr.text same.1
    literal same notSymbol _ := ⟨same.1, notSymbol⟩
    truth b same := by
      cases same.1
      exact ⟨rfl, nofun⟩
    lookup same beside := by
      have member := Expr.mem_symbols_of_mem_nodes (same.2 (Expr.mem_nodes_self _))
      refine ⟨?_, beside.alike.plain.lookup _⟩
      rw [Scopes.lookup, Scopes.lookup, beside.alike.scopes.find?_eq member]
    enterScope beside := beside.enterScope
    exitScope beside := beside.exitScope
    bind name same _ beside := by
      obtain ⟨rfl, plainValue⟩ := same
      exact ⟨beside.alike.assign plainValue (beside.alike.scopes.bind name _), beside.canvas,
        beside.confined.assign (beside.confined.scopes.bind name _),
        beside.confined'.assign (beside.confined'.scopes.bind name _)⟩
    owner calls designated beside := by
      have member := e.assigned_subset_symbols (mem_assigned_of_calls calls designated)
      rw [Scopes.owner?_isSome, Scopes.owner?_isSome, beside.alike.scopes.find?_eq member]
    assign calls designated chosen chosen' same _ beside := by
      obtain ⟨rfl, plainValue⟩ := same
      have member := mem_assigned_of_calls calls designated
      have mentioned := e.assigned_subset_symbols member
      exact ⟨beside.alike.assign plainValue
          (beside.alike.scopes.assign mentioned chosen chosen' _), beside.canvas,
        beside.confined.assign (beside.confined.scopes.assign member chosen _),
        beside.confined'.assign (beside.confined'.scopes.assign member chosen' _)⟩
    setColour colour calls beside :=
      beside.setColour (calls.imp mem_heads_of_calls mem_heads_of_calls) colour
    rect x y w h calls beside :=
      beside.draw seen (Expr.draws_of_shape (.inl (mem_heads_of_calls calls))) _
    line x₁ y₁ x₂ y₂ calls beside :=
      beside.draw seen (Expr.draws_of_shape (.inr (mem_heads_of_calls calls))) _ }

theorem traceable_effects (e : Expr) (a b : Machine) (seen : e.Draws → a.canvas = b.canvas) :
    (effects e a b seen).Traceable where
  deep := trivial
  enter level same beside := by
    rw [← same.1]
    exact beside.record nofun
  leave level same beside := by
    rw [← same.1]
    exact beside.record nofun
  error level same beside := by
    rw [← same]
    exact beside.record nofun

/-- An expression does the same on machines that show the same for what it mentions, and nothing
to what it does not mention. -/
theorem beside_evalTop (tracing : Bool) (level : Int) (e : Expr) {m n : Machine}
    (plain : m.scopes.NoSymbols) (plain' : n.scopes.NoSymbols)
    (shown : ∀ name ∈ e.symbols, m.scopes.find? name = n.scopes.find? name)
    (seen : e.Draws → m.canvas = n.canvas) :
    (evalTop tracing level e m).1 = (evalTop tracing level e n).1 ∧
      Beside e m n 0 (evalTop tracing level e m).2 (evalTop tracing level e n).2 := by
  have start : Beside e m n 0 m n :=
    ⟨⟨.outer shown, plain, plain', rfl, [], rfl, rfl⟩, id, .self e m, .self e n⟩
  have ended := (traceable_effects e m n seen).agree_evalWithin tracing
    (maxDepth - level).toNat level ⟨rfl, List.Subset.refl _⟩ m n start
  unfold evalTop eval
  generalize evalWithin tracing (maxDepth - level).toNat level e m = r at ended
  generalize evalWithin tracing (maxDepth - level).toNat level e n = r' at ended
  cases ended with
  | ok same beside => exact ⟨congrArg Except.ok same.1, beside⟩
  | error halts beside =>
    refine ⟨?_, beside⟩
    cases halts with
    | error _ located => rw [show _ = _ from located]
    | stuck => rfl

theorem confined_evalTop (tracing : Bool) (level : Int) (e : Expr) {m : Machine}
    (plain : m.scopes.NoSymbols) : Confined e m 0 (evalTop tracing level e m).2 :=
  (beside_evalTop tracing level e plain plain (fun _ _ => rfl) fun _ => rfl).2.confined

theorem noSymbols_evalTop (tracing : Bool) (level : Int) (e : Expr) {m : Machine}
    (plain : m.scopes.NoSymbols) : (evalTop tracing level e m).2.scopes.NoSymbols :=
  (beside_evalTop tracing level e plain plain (fun _ _ => rfl) fun _ => rfl).2.alike.plain

theorem Confined.framed {e : Expr} {start m : Machine} (confined : Confined e start 0 m) :
    Scopes.Framed e.assigned start.scopes m.scopes := by
  cases confined.scopes with
  | outer framed => exact framed

/-- However an evaluation ends, a binding that was there differs only if an assignment in the
expression is written for its name, and only where that name is owned, never where it is shadowed.
The canvas is used only by an expression with a list that is headed by one of the drawing names,
and each colour is changed only by its own. -/
theorem effects_stay_confined (tracing : Bool) (level : Int) (e : Expr) {m : Machine}
    (plain : m.scopes.NoSymbols) :
    let last := (evalTop tracing level e m).2
    last.scopes.length = m.scopes.length ∧
    (∀ i x, last.scopes.at? i x ≠ m.scopes.at? i x →
      x ∈ e.assigned ∧ m.scopes.owner? x = some i) ∧
    (∃ events, last.log = events ++ m.log ∧ ∀ event ∈ events, event.marks → e.Draws) ∧
    (last.canvas ≠ m.canvas → e.Draws) ∧
    (last.canvas.fill ≠ m.canvas.fill → bytes "fill" ∈ e.heads ∨ bytes "noFill" ∈ e.heads) ∧
    (last.canvas.stroke ≠ m.canvas.stroke →
      bytes "stroke" ∈ e.heads ∨ bytes "noStroke" ∈ e.heads) := by
  intro last
  have confined : Confined e m 0 last := confined_evalTop tracing level e plain
  have length : last.scopes.length = m.scopes.length := by
    simpa using congrArg List.length confined.framed.names_eq
  have drawn : last.canvas ≠ m.canvas → e.Draws := by
    intro differs
    by_contra blind
    exact differs (confined.canvas_eq blind)
  exact ⟨length, confined.framed.owned, confined.events, drawn, confined.colours .fill,
    confined.colours .stroke⟩

/-- `(let ((x false)) (set x true) (set y true) (fill "red"))`: the assignment of `x` stays in the
scope of the `let`, that of `y` does not reach the outer `y` that is shadowed, and the colour of
strokes is the same. -/
theorem effects_stay_confined_shadowed :
    let x := bytes "x"
    let y := bytes "y"
    let old := Expr.boolean noLoc false
    let m : Machine := { scopes := [Frame.empty.set y old, (Frame.empty.set x old).set y old] }
    let set (loc : Int) (name : Bytes) := Expr.list loc
      [.symbol (loc + 1) (bytes "set"), .symbol (loc + 5) name, .symbol (loc + 7) (bytes "true")]
    let e := Expr.list 0 [.symbol 1 (bytes "let"),
      .list 5 [.list 6 [.symbol 7 x, .symbol 9 (bytes "false")]], set 17 x, set 30 y,
      .list 43 [.symbol 44 (bytes "fill"), .string 49 (bytes "red")]]
    let last := (evalTop false 0 e m).2
    m.scopes.NoSymbols ∧ last.scopes.at? 1 y = m.scopes.at? 1 y ∧
      last.scopes.at? 1 x = m.scopes.at? 1 x ∧ last.canvas.stroke = m.canvas.stroke ∧
      last.scopes.at? 0 y = some (.boolean 37 true) ∧ last.canvas.fill = bytes "red" := by
  intro x y old m set e last
  have plain : m.scopes.NoSymbols := by decide
  obtain ⟨-, bindings, -, -, -, stroke⟩ := effects_stay_confined false 0 e plain
  refine ⟨plain, ?_, rfl, ?_, rfl, rfl⟩
  · by_contra differs
    exact absurd (bindings 1 y differs).2 (by decide)
  · by_contra differs
    exact absurd (stroke differs) (by decide)

end Sketch
