import Sketch.Proofs.Eval.Related

/-! Only what is visible matters. Two chains of scopes that show the same binding for every name in
an expression are the same to it, however they spread their bindings over scopes and whatever else
they hold. -/
namespace Sketch

namespace Expr

mutual
/-- The names of the symbols anywhere in an expression. -/
def symbols : Expr → List Bytes
  | .symbol _ name => [name]
  | .list _ elements => symbolsAll elements
  | .nothing | .number .. | .string .. | .boolean .. => []

def symbolsAll : List Expr → List Bytes
  | [] => []
  | element :: rest => symbols element ++ symbolsAll rest
end

theorem symbols_subset_symbolsAll {element : Expr} {elements : List Expr}
    (member : element ∈ elements) : element.symbols ⊆ symbolsAll elements := by
  induction elements with
  | nil => cases member
  | cons first rest ih =>
    rw [symbolsAll]
    rcases List.mem_cons.1 member with rfl | later
    · exact List.subset_append_left _ _
    · exact List.subset_append_of_subset_right _ (ih later)

end Expr

namespace Scopes

/-- Both chains show the same for each of the names, and hold it in some scope or in none. -/
def AgreeOn (names : List Bytes) (a b : Scopes) : Prop :=
  ∀ name ∈ names, lookup a name = lookup b name ∧ a.any (·.has name) = b.any (·.has name)

/-- No name is bound to a symbol. -/
def NoSymbols (scopes : Scopes) : Prop :=
  ∀ f ∈ scopes, ∀ entry ∈ f.entries, entry.2.kind ≠ .symbol

instance (scopes : Scopes) : Decidable (NoSymbols scopes) :=
  inferInstanceAs (Decidable (∀ f ∈ scopes, ∀ entry ∈ f.entries, entry.2.kind ≠ .symbol))

theorem find?_cons (f : Frame) (rest : Scopes) (name : Bytes) :
    find? (f :: rest) name = (f.find? name).or (find? rest name) := by
  rw [find?, List.findSome?_cons]
  cases f.find? name <;> rfl

theorem any_has_eq (scopes : Scopes) (name : Bytes) :
    scopes.any (·.has name) = (find? scopes name).isSome := by
  induction scopes with
  | nil => rfl
  | cons f rest ih => rw [List.any_cons, ih, find?_cons, Frame.has, Option.isSome_or]

theorem owner?_isSome (scopes : Scopes) (name : Bytes) :
    (owner? scopes name).isSome = (find? scopes name).isSome := by
  rw [owner?, List.findIdx?_isSome, any_has_eq]

theorem agreeOn_iff {names : List Bytes} {a b : Scopes} :
    AgreeOn names a b ↔ ∀ name ∈ names, find? a name = find? b name := by
  refine forall₂_congr fun name member => ⟨fun ⟨shown, held⟩ => ?_, fun equal => ?_⟩
  · rw [any_has_eq, any_has_eq] at held
    unfold lookup at shown
    cases found : find? a name <;> cases found' : find? b name <;>
      simp_all only [Option.isSome_some, Option.isSome_none, Option.getD_some, reduceCtorEq]
  · rw [any_has_eq, any_has_eq, lookup, lookup, equal]
    exact ⟨rfl, rfl⟩

/-- Assigning in the scope that owns a name changes what is seen of it, and of no other. -/
theorem find?_setAt_owner {scopes : Scopes} {name : Bytes} {index : Nat}
    (chosen : owner? scopes name = some index) (value : Expr) (other : Bytes) :
    find? (setAt scopes index name value) other =
      if other = name then some value else find? scopes other := by
  induction scopes generalizing index with
  | nil => simp [owner?] at chosen
  | cons f rest ih =>
    rw [owner?_cons] at chosen
    split at chosen
    · cases chosen
      rw [setAt_zero, find?_cons, find?_cons, Frame.find?_set]
      split <;> rfl
    · next missing =>
      obtain ⟨outer, found, rfl⟩ := Option.map_eq_some_iff.1 chosen
      rw [setAt_succ, find?_cons, find?_cons, ih found]
      by_cases same : other = name
      · have unbound : f.find? name = none := by simpa [Frame.has] using missing
        simp [same, unbound]
      · simp [same]

/-- Assigning a value keeps what holds of all values. -/
theorem forall_setAt {P : Expr → Prop} {scopes : Scopes}
    (all : ∀ f ∈ scopes, ∀ entry ∈ f.entries, P entry.2) (index : Nat) (name : Bytes)
    {value : Expr} (holds : P value) :
    ∀ f ∈ setAt scopes index name value, ∀ entry ∈ f.entries, P entry.2 := by
  induction scopes generalizing index with
  | nil => simp [Scopes.setAt]
  | cons f rest ih =>
    obtain ⟨first, later⟩ := List.forall_mem_cons.1 all
    cases index with
    | zero =>
      rw [setAt_zero]
      refine List.forall_mem_cons.2 ⟨fun entry bound => ?_, later⟩
      rcases Frame.mem_insert bound with rfl | old
      · exact holds
      · exact first entry old
    | succ index =>
      rw [setAt_succ]
      exact List.forall_mem_cons.2 ⟨first, ih later index⟩

/-- What is found is one of the values. -/
theorem of_find?_eq_some {P : Expr → Prop} {scopes : Scopes}
    (all : ∀ f ∈ scopes, ∀ entry ∈ f.entries, P entry.2) {name : Bytes} {value : Expr}
    (found : find? scopes name = some value) : P value := by
  obtain ⟨f, member, bound⟩ := List.exists_of_findSome?_eq_some found
  obtain ⟨before, behind, entries, _⟩ := List.lookup_eq_some_iff.1 bound
  exact all f member (name, value) (by simp [entries])

theorem NoSymbols.setAt {scopes : Scopes} (plain : NoSymbols scopes) (index : Nat) (name : Bytes)
    {value : Expr} (plainValue : value.kind ≠ .symbol) :
    NoSymbols (setAt scopes index name value) :=
  forall_setAt (P := fun value => value.kind ≠ .symbol) plain index name plainValue

theorem NoSymbols.lookup {scopes : Scopes} (plain : NoSymbols scopes) (name : Bytes) :
    (lookup scopes name).kind ≠ .symbol := by
  unfold Scopes.lookup
  cases found : find? scopes name with
  | none => nofun
  | some value => exact of_find?_eq_some (P := fun value => value.kind ≠ .symbol) plain found

/-- Chains that show the same for some names, each of the innermost `k` scopes by itself. -/
inductive AlikeIn (names : List Bytes) : Nat → Scopes → Scopes → Prop where
  | outer : (∀ name ∈ names, find? a name = find? b name) → AlikeIn names 0 a b
  | inner {f g : Frame} {k : Nat} {a b : Scopes} : (∀ name ∈ names, f.find? name = g.find? name) →
    AlikeIn names k a b → AlikeIn names (k + 1) (f :: a) (g :: b)

namespace AlikeIn

variable {names : List Bytes} {k : Nat} {a b : Scopes}

theorem find?_eq (alike : AlikeIn names k a b) {name : Bytes} (member : name ∈ names) :
    find? a name = find? b name := by
  induction alike with
  | outer same => exact same name member
  | inner same _ ih => rw [find?_cons, find?_cons, same name member, ih]

theorem enter (alike : AlikeIn names k a b) : AlikeIn names (k + 1) a.enter b.enter :=
  .inner (fun _ _ => rfl) alike

theorem exit (alike : AlikeIn names (k + 1) a b) : AlikeIn names k a.exit b.exit := by
  cases alike with
  | inner _ outer => exact outer

theorem bind (alike : AlikeIn names (k + 1) a b) (name : Bytes) (value : Expr) :
    AlikeIn names (k + 1) (setAt a 0 name value) (setAt b 0 name value) := by
  cases alike with
  | inner same outer =>
    rw [setAt_zero, setAt_zero]
    refine .inner (fun other member => ?_) outer
    rw [Frame.find?_set, Frame.find?_set, same other member]

/-- The owners may be different scopes, but then they lie outside the scopes that match. -/
theorem assign (alike : AlikeIn names k a b) {name : Bytes} (member : name ∈ names) {i j : Nat}
    (chosen : owner? a name = some i) (chosen' : owner? b name = some j) (value : Expr) :
    AlikeIn names k (setAt a i name value) (setAt b j name value) := by
  induction alike generalizing i j with
  | outer same =>
    refine .outer fun other otherMember => ?_
    rw [find?_setAt_owner chosen, find?_setAt_owner chosen', same other otherMember]
  | @inner f g k a b same outer ih =>
    have held : f.has name = g.has name := by rw [Frame.has, Frame.has, same name member]
    rw [owner?_cons] at chosen chosen'
    rw [← held] at chosen'
    split at chosen
    · next found =>
      rw [if_pos found] at chosen'
      cases chosen
      cases chosen'
      exact (AlikeIn.inner same outer).bind name value
    · next missing =>
      rw [if_neg missing] at chosen'
      obtain ⟨i, owned, rfl⟩ := Option.map_eq_some_iff.1 chosen
      obtain ⟨j, owned', rfl⟩ := Option.map_eq_some_iff.1 chosen'
      rw [setAt_succ, setAt_succ]
      exact .inner same (ih owned owned')

end AlikeIn

end Scopes

/-- Machines that an expression made of these names cannot tell apart, with the events since the
logs were `log` and `log'`. -/
structure Alike (names : List Bytes) (log log' : List Event) (k : Nat) (m n : Machine) : Prop where
  scopes : Scopes.AlikeIn names k m.scopes n.scopes
  plain : Scopes.NoSymbols m.scopes
  plain' : Scopes.NoSymbols n.scopes
  canvas : m.canvas = n.canvas
  events : ∃ events, m.log = events ++ log ∧ n.log = events ++ log'

namespace Alike

variable {names : List Bytes} {log log' : List Event} {k : Nat} {m n : Machine}

theorem record (alike : Alike names log log' k m n) (event : Event) :
    Alike names log log' k (m.record event) (n.record event) := by
  obtain ⟨events, first, second⟩ := alike.events
  refine { alike with events := ⟨event :: events, ?_, ?_⟩ }
  · simp [Machine.record, first]
  · simp [Machine.record, second]

theorem draw (alike : Alike names log log' k m n) (shape : Canvas → List DrawCall) :
    Alike names log log' k (after (Sketch.draw shape) m) (after (Sketch.draw shape) n) := by
  obtain ⟨events, first, second⟩ := alike.events
  rw [after_draw, after_draw]
  refine { alike with events := ⟨((shape m.canvas).map Event.draw).reverse ++ events, ?_, ?_⟩ }
  · rw [first, List.append_assoc]
  · rw [← alike.canvas, second, List.append_assoc]

theorem setColour (alike : Alike names log log' k m n) (ink : Ink) (colour : Bytes) :
    Alike names log log' k (after (Sketch.setColour ink colour) m)
      (after (Sketch.setColour ink colour) n) := by
  have coloured : Alike names log log' k { m with canvas := m.canvas.setColour ink colour }
      { n with canvas := n.canvas.setColour ink colour } :=
    { alike with canvas := congrArg (·.setColour ink colour) alike.canvas }
  exact coloured.record (.ink ink colour)

theorem enterScope (alike : Alike names log log' k m n) :
    Alike names log log' (k + 1) m.enterScope n.enterScope where
  scopes := alike.scopes.enter
  plain := List.forall_mem_cons.2 ⟨nofun, alike.plain⟩
  plain' := List.forall_mem_cons.2 ⟨nofun, alike.plain'⟩
  canvas := alike.canvas
  events := alike.events

theorem exitScope (alike : Alike names log log' (k + 1) m n) :
    Alike names log log' k m.exitScope n.exitScope where
  scopes := alike.scopes.exit
  plain f member := alike.plain f (List.mem_of_mem_tail member)
  plain' f member := alike.plain' f (List.mem_of_mem_tail member)
  canvas := alike.canvas
  events := alike.events

/-- Whatever scopes are assigned in, only what is visible afterwards has to be alike. -/
theorem assign (alike : Alike names log log' k m n) {name : Bytes} {value : Expr} {i j : Nat}
    (plainValue : value.kind ≠ .symbol)
    (scopes : Scopes.AlikeIn names k (m.scopes.setAt i name value) (n.scopes.setAt j name value)) :
    Alike names log log' k (after (Sketch.assign i name value) m)
      (after (Sketch.assign j name value) n) where
  scopes := scopes
  plain := alike.plain.setAt i name plainValue
  plain' := alike.plain'.setAt j name plainValue
  canvas := alike.canvas
  events := alike.events

end Alike

/-- Where no value is a symbol, a place is written as one. -/
theorem mem_of_designates {names : List Bytes} {place place' e e' : Expr} {name : Bytes}
    (calls : Calls (fun e e' => e = e' ∧ e.symbols ⊆ names) .assignment [place, e] [place', e'])
    (designated : Designates (fun v w => v = w ∧ v.kind ≠ .symbol) place name) : name ∈ names := by
  obtain ⟨l, l', h, h', _, inside⟩ := calls
  rcases designated with ⟨at_, rfl⟩ | ⟨_, _, _, plainValue⟩
  · apply inside
    simp [Expr.symbols, Expr.symbolsAll]
  · exact absurd rfl plainValue

/-- The same expression, made of given names, on machines that are alike. -/
def visible (names : List Bytes) (log log' : List Event) : Simulation where
  loc := Eq
  expr e e' := e = e' ∧ e.symbols ⊆ names
  value v w := v = w ∧ v.kind ≠ .symbol
  fault _ := True
  machine := Alike names log log'
  paired := by
    rintro e _ ⟨rfl, inside⟩
    cases e with
    | nothing => exact .nothing rfl
    | number => exact .number rfl
    | string => exact .string rfl
    | boolean => exact .boolean rfl
    | symbol => exact .symbol rfl
    | list loc elements =>
      refine .list rfl (List.forall₂_same.2 fun element member => ⟨rfl, ?_⟩)
      exact List.Subset.trans (Expr.symbols_subset_symbolsAll member) inside
  text same := congrArg Expr.text same.1
  matched := by
    rintro v _ ⟨rfl, _⟩
    cases v with
    | nothing => exact .nothing trivial
    | number => exact .number trivial
    | string => exact .string trivial
    | boolean => exact .boolean trivial
    | symbol => exact .symbol trivial
    | list => exact .list trivial (List.forall₂_same.2 fun _ _ => trivial)
  literal same notSymbol _ := ⟨same.1, notSymbol⟩
  truth b same := by
    cases same.1
    exact ⟨rfl, nofun⟩
  nothing := ⟨rfl, nofun⟩
  number _ := ⟨rfl, nofun⟩
  string _ := ⟨rfl, nofun⟩
  boolean _ := ⟨rfl, nofun⟩
  faults _ := trivial
  lookup same alike := by
    refine ⟨?_, alike.plain.lookup _⟩
    rw [Scopes.lookup, Scopes.lookup, alike.scopes.find?_eq (same.2 (List.mem_singleton_self _))]
  enterScope alike := alike.enterScope
  exitScope alike := alike.exitScope
  bind name same _ alike := by
    obtain ⟨rfl, plainValue⟩ := same
    exact alike.assign plainValue (alike.scopes.bind name _)
  owner calls designated alike := by
    have member := mem_of_designates calls designated
    rw [Scopes.owner?_isSome, Scopes.owner?_isSome, alike.scopes.find?_eq member]
  assign calls designated chosen chosen' same _ alike := by
    obtain ⟨rfl, plainValue⟩ := same
    have member := mem_of_designates calls designated
    exact alike.assign plainValue (alike.scopes.assign member chosen chosen' _)
  setColour colour _ alike := alike.setColour _ colour
  rect x y w h _ alike := alike.draw _
  line x₁ y₁ x₂ y₂ _ alike := alike.draw _

theorem traceable_visible (names : List Bytes) (log log' : List Event) :
    (visible names log log').Traceable where
  deep := trivial
  enter level same alike := by
    rw [← same.1]
    exact alike.record _
  leave level same alike := by
    rw [← same.1]
    exact alike.record _
  error level same alike := by
    rw [← same]
    exact alike.record _

/-- Machines on which every name in an expression shows the same evaluate it alike: the outcome, the
canvas and the events are the same, and so is what these names show afterwards. -/
theorem evalTop_congr_of_agreeOn (tracing : Bool) (level : Int) (e : Expr) {m n : Machine}
    (plain : m.scopes.NoSymbols) (plain' : n.scopes.NoSymbols) (canvas : m.canvas = n.canvas)
    (agree : Scopes.AgreeOn e.symbols m.scopes n.scopes) :
    (evalTop tracing level e m).1 = (evalTop tracing level e n).1 ∧
    (evalTop tracing level e m).2.canvas = (evalTop tracing level e n).2.canvas ∧
    (∃ events, (evalTop tracing level e m).2.log = events ++ m.log ∧
      (evalTop tracing level e n).2.log = events ++ n.log) ∧
    Scopes.AgreeOn e.symbols (evalTop tracing level e m).2.scopes
      (evalTop tracing level e n).2.scopes := by
  have start : Alike e.symbols m.log n.log 0 m n :=
    ⟨.outer (Scopes.agreeOn_iff.1 agree), plain, plain', canvas, [], rfl, rfl⟩
  have ended := (traceable_visible e.symbols m.log n.log).agree_evalWithin tracing
    (maxDepth - level).toNat level ⟨rfl, List.Subset.refl _⟩ m n start
  unfold evalTop eval
  generalize evalWithin tracing (maxDepth - level).toNat level e m = r at ended
  generalize evalWithin tracing (maxDepth - level).toNat level e n = r' at ended
  cases ended with
  | ok same alike =>
    exact ⟨congrArg Except.ok same.1, alike.canvas, alike.events,
      Scopes.agreeOn_iff.2 fun _ => alike.scopes.find?_eq⟩
  | error halts alike =>
    refine ⟨?_, alike.canvas, alike.events, Scopes.agreeOn_iff.2 fun _ => alike.scopes.find?_eq⟩
    cases halts with
    | error _ located => rw [show _ = _ from located]
    | stuck => rfl

/-- A name is assigned in the root scope of one machine and further in, where it shadows another
binding, in the other. -/
theorem evalTop_congr_of_agreeOn_spread :
    let x := bytes "x"
    let z := bytes "z"
    let frame (text : String) : Frame := Frame.empty.set x (.string noLoc (bytes text))
    let unrelated : Frame := Frame.empty.set (bytes "y") (.boolean noLoc true)
    let m : Machine := { scopes := [frame "old"] }
    let n : Machine := { scopes := [unrelated, frame "old", frame "shadowed"] }
    -- (let ((z x)) (set x "new") z)
    let e := Expr.list 0 [.symbol 1 (bytes "let"), .list 5 [.list 6 [.symbol 7 z, .symbol 9 x]],
      .list 13 [.symbol 14 (bytes "set"), .symbol 18 x, .string 20 (bytes "new")], .symbol 27 z]
    (m.scopes.NoSymbols ∧ n.scopes.NoSymbols ∧ m.canvas = n.canvas ∧
      Scopes.AgreeOn e.symbols m.scopes n.scopes) ∧
    (evalTop true 0 e m).1 = (evalTop true 0 e n).1 ∧
    (evalTop true 0 e m).2.canvas = (evalTop true 0 e n).2.canvas ∧
    (∃ events, (evalTop true 0 e m).2.log = events ++ m.log ∧
      (evalTop true 0 e n).2.log = events ++ n.log) ∧
    Scopes.AgreeOn e.symbols (evalTop true 0 e m).2.scopes (evalTop true 0 e n).2.scopes := by
  intro x z frame unrelated m n e
  have plain : m.scopes.NoSymbols := by decide
  have plain' : n.scopes.NoSymbols := by decide
  have agree : Scopes.AgreeOn e.symbols m.scopes n.scopes := by
    intro name member
    have named : name ∈ [bytes "let", z, x, bytes "set", x, z] := member
    simp only [List.mem_cons, List.not_mem_nil, or_false] at named
    rcases named with rfl | rfl | rfl | rfl | rfl | rfl <;> exact ⟨rfl, rfl⟩
  exact ⟨⟨plain, plain', rfl, agree⟩, evalTop_congr_of_agreeOn true 0 e plain plain' rfl agree⟩

end Sketch
