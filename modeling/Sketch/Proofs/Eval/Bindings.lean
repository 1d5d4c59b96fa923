import Sketch.Proofs.Eval.Tracing

/-! Bindings in one scope or in two. Bindings that are made one after another in the same scope
might as well be split anywhere, the later ones being made in a scope of their own: a name bound
again hides the earlier binding instead of replacing it, and an assignment finds the one that shows.
So a form with all of its bindings is the same as two forms, one within the other. -/
namespace Sketch

namespace Scopes

/-- Chains that differ in one scope only, behind the innermost `k`: its bindings that show are, in
the second chain, those of two scopes. -/
inductive Spread : Nat → Scopes → Scopes → Prop where
  | here {f g h : Frame} {rest : Scopes} :
    (∀ name, f.find? name = (g.find? name).or (h.find? name)) →
    Spread 0 (f :: rest) (g :: h :: rest)
  | inner {k : Nat} {f : Frame} {a b : Scopes} : Spread k a b → Spread (k + 1) (f :: a) (f :: b)

namespace Spread

variable {k : Nat} {a b : Scopes}

/-- A new scope holds nothing, so nothing has moved yet. -/
theorem enter_right (f : Frame) (rest : Scopes) : Spread 0 (f :: rest) (enter (f :: rest)) :=
  .here fun _ => rfl

theorem find?_eq (spread : Spread k a b) (name : Bytes) : find? a name = find? b name := by
  induction spread with
  | here shown => rw [find?_cons, find?_cons, find?_cons, shown, Option.or_assoc]
  | inner _ ih => rw [find?_cons, find?_cons, ih]

theorem exit (spread : Spread (k + 1) a b) : Spread k a.exit b.exit := by
  cases spread with
  | inner outer => exact outer

/-- What lies further out is the same. -/
theorem exit_eq (spread : Spread 0 a b) : a.exit = b.exit.exit := by
  cases spread with
  | here => rfl

theorem bind (spread : Spread k a b) (name : Bytes) (value : Expr) :
    Spread k (setAt a 0 name value) (setAt b 0 name value) := by
  cases spread with
  | here shown =>
    rw [setAt_zero, setAt_zero]
    refine .here fun other => ?_
    rw [Frame.find?_set, Frame.find?_set, shown]
    split <;> rfl
  | inner outer =>
    rw [setAt_zero, setAt_zero]
    exact .inner outer

/-- The owner in the one scope is in one of the two scopes, the one that shows. -/
theorem assign_here {f g h : Frame} {rest : Scopes} {name : Bytes} {i j : Nat}
    (shown : ∀ name, f.find? name = (g.find? name).or (h.find? name))
    (chosen : owner? (f :: rest) name = some i) (chosen' : owner? (g :: h :: rest) name = some j)
    (value : Expr) :
    Spread 0 (setAt (f :: rest) i name value) (setAt (g :: h :: rest) j name value) := by
  have held : f.has name = (g.has name || h.has name) := by
    rw [Frame.has, shown, Option.isSome_or]
    rfl
  rw [owner?_cons, held] at chosen
  rw [owner?_cons, owner?_cons] at chosen'
  cases first : g.has name with
  | true =>
    simp only [first, Bool.true_or, ↓reduceIte, Option.some.injEq] at chosen chosen'
    rw [← chosen, ← chosen']
    exact (Spread.here shown).bind name value
  | false =>
    cases second : h.has name with
    | true =>
      simp only [first, second, Bool.or_true, ↓reduceIte, Option.some.injEq, Bool.false_eq_true,
        Option.map_some] at chosen chosen'
      rw [← chosen, ← chosen', setAt_zero, setAt_succ, setAt_zero]
      have hidden : g.find? name = none := by simpa [Frame.has] using first
      refine .here fun other => ?_
      rw [Frame.find?_set, Frame.find?_set, shown]
      by_cases same : other = name
      · simp [same, hidden]
      · simp [same]
    | false =>
      simp only [first, second, Bool.or_false, Bool.false_eq_true, ↓reduceIte,
        Option.map_map] at chosen chosen'
      obtain ⟨outer, owned, rfl⟩ := Option.map_eq_some_iff.1 chosen
      rw [owned, Option.map_some, Option.some.injEq] at chosen'
      rw [← chosen']
      exact .here shown

theorem assign (spread : Spread k a b) {name : Bytes} {i j : Nat}
    (chosen : owner? a name = some i) (chosen' : owner? b name = some j) (value : Expr) :
    Spread k (setAt a i name value) (setAt b j name value) := by
  induction spread generalizing i j with
  | here shown => exact assign_here shown chosen chosen' value
  | @inner k f a b outer ih =>
    rw [owner?_cons] at chosen chosen'
    split at chosen
    · next held =>
      rw [if_pos held] at chosen'
      cases chosen
      cases chosen'
      exact (Spread.inner outer).bind name value
    · next missing =>
      rw [if_neg missing] at chosen'
      obtain ⟨i, owned, rfl⟩ := Option.map_eq_some_iff.1 chosen
      obtain ⟨j, owned', rfl⟩ := Option.map_eq_some_iff.1 chosen'
      rw [setAt_succ, setAt_succ]
      exact .inner (ih owned owned')

end Spread

end Scopes

/-- Machines that differ in how bindings are spread over their scopes. -/
structure Spread (k : Nat) (m n : Machine) : Prop where
  scopes : Scopes.Spread k m.scopes n.scopes
  canvas : m.canvas = n.canvas
  log : m.log = n.log

namespace Spread

variable {k : Nat} {m n : Machine}

theorem record (spread : Spread k m n) (event : Event) :
    Spread k (m.record event) (n.record event) :=
  { spread with log := congrArg (event :: ·) spread.log }

theorem draw (spread : Spread k m n) (shape : Canvas → List DrawCall) :
    Spread k (after (Sketch.draw shape) m) (after (Sketch.draw shape) n) := by
  rw [after_draw, after_draw, spread.canvas, spread.log]
  exact ⟨spread.scopes, rfl, rfl⟩

theorem setColour (spread : Spread k m n) (ink : Ink) (colour : Bytes) :
    Spread k (after (Sketch.setColour ink colour) m) (after (Sketch.setColour ink colour) n) := by
  have coloured : Spread k { m with canvas := m.canvas.setColour ink colour }
      { n with canvas := n.canvas.setColour ink colour } :=
    { spread with canvas := congrArg (·.setColour ink colour) spread.canvas }
  exact coloured.record (.ink ink colour)

theorem bind (spread : Spread k m n) (name : Bytes) (value : Expr) :
    Spread k (after (assign 0 name value) m) (after (assign 0 name value) n) :=
  { spread with scopes := spread.scopes.bind name value }

theorem exitScope_eq (spread : Spread 0 m n) : m.exitScope = n.exitScope.exitScope := by
  obtain ⟨scopes, canvas, log⟩ := spread
  simp only [Machine.exitScope, scopes.exit_eq, canvas, log]

end Spread

/-- The same evaluation on machines whose bindings are spread differently. -/
def spreading (nodes : List Expr) : Simulation :=
  { Simulation.alone nodes (fun _ => True) (fun _ => trivial) with
    machine := Spread
    lookup := fun _ spread => by
      show Scopes.lookup _ _ = Scopes.lookup _ _
      rw [Scopes.lookup, Scopes.lookup, spread.scopes.find?_eq]
    enterScope := fun spread => { spread with scopes := .inner spread.scopes }
    exitScope := fun spread => { spread with scopes := spread.scopes.exit }
    bind := fun name same _ spread => by
      rw [show _ = _ from same]
      exact spread.bind name _
    owner := fun _ _ spread => by
      rw [Scopes.owner?_isSome, Scopes.owner?_isSome, spread.scopes.find?_eq]
    assign := fun _ _ chosen chosen' same _ spread => by
      rw [show _ = _ from same]
      exact { spread with scopes := spread.scopes.assign chosen chosen' _ }
    setColour := fun colour _ spread => spread.setColour _ colour
    rect := fun _ _ _ _ _ spread => spread.draw _
    line := fun _ _ _ _ _ spread => spread.draw _ }

theorem traceable_spreading (nodes : List Expr) : (spreading nodes).Traceable where
  deep := trivial
  enter level same spread := by
    rw [show _ = _ from same.1]
    exact spread.record _
  leave level same spread := by
    rw [show _ = _ from same]
    exact spread.record _
  error level same spread := by
    rw [show _ = _ from same.1]
    exact spread.record _

theorem evaluators_spreading (nodes : List Expr) (tracing : Bool) (level : Int) :
    (spreading nodes).Evaluators (eval tracing level) (eval tracing level) :=
  ⟨(traceable_spreading nodes).agree_evalWithin tracing _ level,
    lasting_sameNames.evalWithin tracing _ level, lasting_sameNames.evalWithin tracing _ level⟩

/-- Makes bindings in the innermost scope, and evaluates forms there. -/
def bindThen (ev : Evaluator) (bindings forms : List Expr) : EvalM Expr := do
  bindings.forM (Form.bindOne ev)
  forms.foldlM (fun _ form => ev form) .nothing

section

variable {ev : Evaluator}

theorem binding_list (ev : Evaluator) (loc : Int) (bindings forms : List Expr) :
    Form.binding ev (.list loc bindings) forms = inScope (bindThen ev bindings forms) := rfl

theorem binding_single (ev : Evaluator) (loc : Int) (bindings : List Expr) (form : Expr) :
    Form.binding ev (.list loc bindings) [form] = inScope (do
      bindings.forM (Form.bindOne ev)
      ev form) := by
  simp only [binding_list, bindThen, List.foldlM_cons, List.foldlM_nil, bind_pure]

theorem bindThen_append (ev : Evaluator) (front back forms : List Expr) :
    bindThen ev (front ++ back) forms = (do
      front.forM (Form.bindOne ev)
      bindThen ev back forms) := by
  have made : (front ++ back).forM (Form.bindOne ev) = (do
      front.forM (Form.bindOne ev)
      back.forM (Form.bindOne ev)) := List.forM_append
  rw [bindThen, made, bind_assoc]
  rfl

theorem inScope_congr {α : Type} {x y : EvalM α} {m : Machine}
    (outcome : (settle x m.enterScope).1 = (settle y m.enterScope).1)
    (left : (settle x m.enterScope).2.exitScope = (settle y m.enterScope).2.exitScope) :
    inScope x m = inScope y m := by
  unfold inScope
  unfold settle at outcome left
  cases ran : x m.enterScope <;> cases ran' : y m.enterScope <;> simp_all

/-- Bindings may be made in a scope of their own, if the scope they would be made in otherwise is
left behind as well. -/
theorem settle_bindThen_inScope (both : ∀ nodes, (spreading nodes).Evaluators ev ev)
    (back forms : List Expr) {m : Machine} (inside : m.scopes ≠ []) :
    (settle (bindThen ev back forms) m).1 = (settle (inScope (bindThen ev back forms)) m).1 ∧
    (settle (bindThen ev back forms) m).2.exitScope =
      (settle (inScope (bindThen ev back forms)) m).2.exitScope := by
  let S := spreading (Expr.insideAll (back ++ forms))
  have same {es : List Expr} (among : es ⊆ back ++ forms) : List.Forall₂ S.expr es es :=
    List.forall₂_same.2 fun _ member => ⟨rfl, Expr.nodes_subset_insideAll (among member)⟩
  have made : S.Agree 0 (fun _ _ => True) (back.forM (Form.bindOne ev))
      (back.forM (Form.bindOne ev)) := by
    refine Simulation.agree_forM (same (List.subset_append_left _ _)) fun _ _ same =>
      Simulation.agree_bindOne_of (both _) same fun name values _ spread => ?_
    rw [show _ = _ from values]
    exact spread.bind name _
  have agreed : S.Agree 0 S.value (bindThen ev back forms) (bindThen ev back forms) :=
    Simulation.agree_bind made fun _ _ _ =>
      Simulation.agree_foldlM (same (List.subset_append_right _ _))
        (fun _ _ _ _ _ same => (both _).agree same) rfl
  have start : Spread 0 m m.enterScope := by
    obtain ⟨f, rest, scopes⟩ := List.exists_cons_of_ne_nil inside
    refine ⟨?_, rfl, rfl⟩
    rw [Machine.enterScope, scopes]
    exact .enter_right f rest
  have ended := agreed m m.enterScope start
  unfold settle inScope
  generalize bindThen ev back forms m = r at ended
  generalize bindThen ev back forms m.enterScope = r' at ended
  cases ended with
  | ok same spread => exact ⟨congrArg Except.ok same, spread.exitScope_eq⟩
  | error halts spread =>
    refine ⟨?_, spread.exitScope_eq⟩
    cases halts with
    | error _ located => rw [show _ = _ from located.1]
    | stuck => rfl

/-- Making bindings leaves as many scopes as there were. -/
theorem length_scopes_bindings (names : ∀ e, Keeps SameNames (ev e)) (bindings : List Expr) :
    Keeps (fun a b => b.scopes.length = a.scopes.length) (bindings.forM (Form.bindOne ev)) := by
  have sized : Cumulative fun a b : Machine => b.scopes.length = a.scopes.length :=
    ⟨fun _ => rfl, fun first later => later.trans first⟩
  refine sized.forM (fun binding => ?_) bindings
  unfold Form.bindOne
  split
  · next name expr =>
    refine sized.bind (fun m => ?_) fun value => ?_
    · simpa using congrArg List.length (names expr m)
    · split
      · exact sized.fail _ _
      · exact fun m => Scopes.length_setAt ..
  · exact sized.stuck
  · exact sized.stuck
  · exact sized.fail _ _

theorem binding_append (both : ∀ nodes, (spreading nodes).Evaluators ev ev) (loc loc' : Int)
    (front back forms : List Expr) :
    Form.binding ev (.list loc (front ++ back)) forms = inScope (do
      front.forM (Form.bindOne ev)
      Form.binding ev (.list loc' back) forms) := by
  funext m
  rw [binding_list, binding_list, bindThen_append]
  cases made : front.forM (Form.bindOne ev) m.enterScope with
  | error halt n =>
    have failed (rest : EvalM Expr) :
        settle (do front.forM (Form.bindOne ev); rest) m.enterScope = (.error halt, n) := by
      rw [settle, bind_of_error made]
    apply inScope_congr <;> rw [failed, failed]
  | ok _ n =>
    have reached (rest : EvalM Expr) :
        settle (do front.forM (Form.bindOne ev); rest) m.enterScope = settle rest n := by
      rw [settle, bind_of_ok made]
      rfl
    have inside : n.scopes ≠ [] := by
      have length := length_scopes_bindings (both []).names front m.enterScope
      rw [after_of_ok made] at length
      exact List.ne_nil_of_length_eq_add_one length
    obtain ⟨outcome, left⟩ := settle_bindThen_inScope both back forms inside
    apply inScope_congr
    · rw [reached, reached, outcome]
    · rw [reached, reached, left]

end

/-- A form that makes bindings, and has other forms in their scope. -/
inductive LetForm (bindings forms : List Expr) : Expr → Prop where
  | list (loc headLoc bindingsLoc : Int) : LetForm bindings forms
    (.list loc (.symbol headLoc (bytes "let") :: .list bindingsLoc bindings :: forms))

namespace LetForm

variable {bindings forms front back : List Expr} {e whole inner split : Expr}

theorem nullFree (isLet : LetForm bindings forms e) (bound : ∀ e ∈ bindings, e.NullFree)
    (each : ∀ e ∈ forms, e.NullFree) : e.NullFree := by
  cases isLet with
  | list loc headLoc bindingsLoc =>
    have head : (Expr.symbol headLoc (bytes "let")).NullFree := Expr.nullFree_of_atom nofun nofun
    have list : (Expr.list bindingsLoc bindings).NullFree := Expr.nullFree_list_iff.2 bound
    rw [Expr.nullFree_list_iff, List.forall_mem_cons, List.forall_mem_cons]
    exact ⟨head, list, each⟩

theorem depth_eq (isLet : LetForm bindings forms e) :
    e.depth = max (Expr.depthAll bindings + 1) (Expr.depthAll forms) + 1 := by
  cases isLet with
  | list => simp only [Expr.depth, Expr.depthAll, Nat.zero_max]

theorem eval_eq (isLet : LetForm bindings forms e) (some : forms ≠ []) (level : Int)
    (below : level < maxDepth) : ∃ loc, eval false level e =
      Form.binding (eval false (level + 1)) (.list loc bindings) forms := by
  cases isLet with
  | list loc headLoc bindingsLoc =>
    refine ⟨bindingsLoc, eval_call below .binding nofun ?_ loc headLoc⟩
    obtain ⟨form, rest, rfl⟩ := List.exists_cons_of_ne_nil some
    simp [Builtin.arity, Arity.accepts]

/-- Within the depth limit, one level more makes no difference to a form. -/
theorem eval_further (isLet : LetForm bindings forms e) (some : forms ≠ []) (level : Int)
    (fits : level + 1 + e.depth ≤ maxDepth) : ∃ loc, eval false (level + 1) e =
      Form.binding (eval false (level + 1)) (.list loc bindings) forms := by
  rw [isLet.depth_eq] at fits
  have further {e : Expr} (shallow : level + 2 + e.depth ≤ maxDepth) :
      eval false (level + 1 + 1) e = eval false (level + 1) e :=
    evalWithin_eq_of_depth_le (by omega) (by omega) _ _
  obtain ⟨loc, evaluated⟩ := isLet.eval_eq some (level + 1) (by omega)
  rw [evaluated]
  refine ⟨loc, Form.binding_congr (fun e bound => further ?_) fun form member => further ?_⟩
  · have := Expr.depth_le_of_mem_insideAll bound
    omega
  · have := Expr.depthAll_le_iff.1 (Nat.le_refl _) form member
    omega

theorem eval_split_eq (isWhole : LetForm (front ++ back) forms whole)
    (isInner : LetForm back forms inner) (isSplit : LetForm front [inner] split)
    (some : forms ≠ []) {level : Int} (fits : level + split.depth ≤ maxDepth) :
    eval false level whole = eval false level split := by
  have deep : inner.depth + 1 ≤ split.depth := by
    rw [isSplit.depth_eq, Expr.depthAll, Expr.depthAll]
    omega
  obtain ⟨wholeLoc, wholly⟩ := isWhole.eval_eq some level (by omega)
  obtain ⟨splitLoc, splitly⟩ := isSplit.eval_eq (List.cons_ne_nil _ _) level (by omega)
  obtain ⟨innerLoc, within⟩ := isInner.eval_further some level (by omega)
  rw [wholly, splitly, binding_single, within,
    binding_append fun nodes => evaluators_spreading nodes false (level + 1)]

end LetForm

/-- A form whose bindings are split anywhere is the same as two forms, one within the other, as long
as these fit within the depth limit: the outcome is the same, and so are the scopes and the canvas
that are left and everything that was done to the canvas. -/
theorem bindings_split (tracing : Bool) {level : Int} {front back forms : List Expr}
    {whole inner split : Expr} (isWhole : LetForm (front ++ back) forms whole)
    (isInner : LetForm back forms inner) (isSplit : LetForm front [inner] split)
    (some : forms ≠ []) (clean : ∀ e ∈ front ++ back ++ forms, e.NullFree)
    (fits : level + split.depth ≤ maxDepth) (m : Machine) :
    let result := evalTop tracing level whole m
    let result' := evalTop tracing level split m
    result.1 = result'.1 ∧ result.2.scopes = result'.2.scopes ∧
      result.2.canvas = result'.2.canvas ∧
      result.2.log.filter Event.marks = result'.2.log.filter Event.marks := by
  intro result result'
  obtain ⟨bound, each⟩ := List.forall_mem_append.1 clean
  obtain ⟨first, second⟩ := List.forall_mem_append.1 bound
  have innerClean : ∀ e ∈ [inner], e.NullFree :=
    List.forall_mem_singleton.2 (isInner.nullFree second each)
  have same : evalTop false level whole m = evalTop false level split m := by
    rw [evalTop, evalTop, isWhole.eval_split_eq isInner isSplit some fits]
  obtain ⟨outcome, scopes, canvas, drawn⟩ :=
    evalTop_quiet (isWhole.nullFree bound each) tracing level m
  obtain ⟨outcome', scopes', canvas', drawn'⟩ :=
    evalTop_quiet (isSplit.nullFree first innerClean) tracing level m
  rw [same] at outcome scopes canvas drawn
  exact ⟨outcome.trans outcome'.symm, scopes.trans scopes'.symm, canvas.trans canvas'.symm,
    drawn.trans drawn'.symm⟩

/-- `(let ((x "old") (y (set x "new")) (x (if y x "no"))) (fill x) (set z x))` is split after its
first binding: what replaces the first `x` in the one scope hides it in the other, once it has been
assigned. -/
theorem bindings_split_shadowing :
    let x := bytes "x"
    let y := bytes "y"
    let z := bytes "z"
    let text (value : String) := Expr.string noLoc (bytes value)
    let set (name : Bytes) (e : Expr) :=
      Expr.list 0 [.symbol 1 (bytes "set"), .symbol 5 name, e]
    let front := [Expr.list 6 [.symbol 7 x, text "old"]]
    let back := [Expr.list 16 [.symbol 17 y, set x (text "new")], Expr.list 35 [.symbol 36 x,
      .list 38 [.symbol 39 (bytes "if"), .symbol 42 y, .symbol 44 x, text "no"]]]
    let forms := [Expr.list 55 [.symbol 56 (bytes "fill"), .symbol 61 x], set z (.symbol 67 x)]
    let binds (bindings forms : List Expr) :=
      Expr.list 0 (.symbol 1 (bytes "let") :: .list 5 bindings :: forms)
    let whole := binds (front ++ back) forms
    let split := binds front [binds back forms]
    let holds (value : String) : Scopes := [Frame.empty.set z (text value)]
    let m : Machine := { scopes := holds "none" }
    forms ≠ [] ∧ (∀ e ∈ front ++ back ++ forms, e.NullFree) ∧ (0 : Int) + split.depth ≤ maxDepth ∧
      (evalTop true 0 split m).1 = .ok (text "new") ∧
      (evalTop true 0 whole m).1 = .ok (text "new") ∧
      (evalTop true 0 whole m).2.scopes = holds "new" ∧
      (evalTop true 0 whole m).2.log.filter Event.marks = [.ink .fill (bytes "new")] := by
  intro x y z text set front back forms binds whole split holds m
  have clean : ∀ e ∈ front ++ back ++ forms, e.NullFree := by decide
  have fits : (0 : Int) + split.depth ≤ maxDepth := by decide
  obtain ⟨outcome, scopes, -, drawn⟩ := bindings_split true (.list 0 1 5) (.list 0 1 5)
    (.list 0 1 5) (List.cons_ne_nil _ _) clean fits m
  exact ⟨List.cons_ne_nil _ _, clean, fits, rfl, outcome, scopes, drawn⟩

end Sketch
