import Sketch.Proofs.Eval.Simulation

/-! Related calls end alike: each form, applied to related arguments by two evaluators that agree
on them, leads from related machines to related ones. No form gets stuck on the number of its
arguments. -/
namespace Sketch

theorem Builtin.eq_name_of_ofName? {name : Bytes} {builtin : Builtin}
    (named : ofName? name = some builtin) : name = builtin.name := by
  obtain ⟨before, behind, table_eq, _⟩ := List.lookup_eq_some_iff.1 named
  have member : (name, builtin) ∈ table := by simp [table_eq]
  obtain ⟨_, _, pair⟩ := List.mem_map.1 member
  cases pair
  rfl

/-- What an assignment still does once its scope is chosen. -/
def assignIn (ev : Evaluator) (index : Nat) (name : Bytes) (e : Expr) : EvalM Expr := do
  match ← ev e with
  | .nothing => fail .missingValue e.loc
  | value =>
    assign index name value
    return value

namespace Simulation

variable {S : Simulation} {k : Nat} {ev ev' : Evaluator}

/-- Evaluators that agree on related expressions inside any number of scopes, and keep all names. -/
structure Evaluators (S : Simulation) (ev ev' : Evaluator) : Prop where
  agree : ∀ {k e e'}, S.expr e e' → S.Agree k S.value (ev e) (ev' e')
  names : ∀ e, Keeps SameNames (ev e)
  names' : ∀ e, Keeps SameNames (ev' e)

theorem loc_of_expr {e e' : Expr} (same : S.expr e e') : S.loc e.loc e'.loc := (S.paired same).loc

theorem forall₂_zip {args args' vs ws : List Expr} (same : List.Forall₂ S.expr args args')
    (values : List.Forall₂ S.value vs ws) :
    List.Forall₂ (fun a b => S.expr a.1 b.1 ∧ S.value a.2 b.2) (args.zip vs) (args'.zip ws) := by
  induction same generalizing vs ws with
  | nil => exact .nil
  | cons first _ ih =>
    cases values with
    | nil => exact .nil
    | cons value values => exact .cons ⟨first, value⟩ (ih values)

theorem forall₂_zipIdx {args args' : List Expr} (same : List.Forall₂ S.expr args args')
    (start : Nat) : List.Forall₂ (fun a b => S.expr a.1 b.1 ∧ a.2 = b.2) (args.zipIdx start)
      (args'.zipIdx start) := by
  induction same generalizing start with
  | nil => exact .nil
  | cons first _ ih => exact .cons ⟨first, rfl⟩ (ih (start + 1))

theorem all_equals {first first' : Expr} {others others' : List Expr} (head : first.Matched first')
    (values : List.Forall₂ Expr.Matched others others') :
    others.all (·.equals first) = others'.all (·.equals first') := by
  induction values with
  | nil => rfl
  | cons value _ ih =>
    rw [List.all_cons, List.all_cons, ih]
    congr 1
    cases head <;> cases value <;> rfl

theorem agree_chained (rel : Relation) {arg arg' left left' : Expr}
    {rest rest' : List (Expr × Expr)} (located : S.expr arg arg') (values : S.value left left')
    (same : List.Forall₂ (fun a b => S.expr a.1 b.1 ∧ S.value a.2 b.2) rest rest') :
    S.Agree k Eq (Form.chained rel arg left rest) (Form.chained rel arg' left' rest') := by
  induction same generalizing arg arg' left left' with
  | nil => exact agree_pure rfl
  | @cons next next' rest rest' pair _ ih =>
    obtain ⟨next, right⟩ := next
    obtain ⟨next', right'⟩ := next'
    obtain ⟨nextSame, rights⟩ := pair
    have wrong (l r : Kind) : S.Agree k Eq (fail (.incomparable l r) arg.loc : EvalM Bool)
        (fail (.incomparable l r) arg'.loc) := agree_fail nofun (loc_of_expr located)
    have leftKinds := S.matched values
    have rightKinds := S.matched rights
    cases leftKinds with
    | number =>
      cases rightKinds with
      | number =>
        unfold Form.chained
        dsimp only
        split
        · exact ih nextSame rights
        · exact agree_pure rfl
      | nothing | string | boolean | symbol | list => exact wrong _ _
    | nothing | string | boolean | symbol | list => cases rightKinds <;> exact wrong _ _

/-- A test that comes out alike on both sides ends both loops in the same round. -/
theorem agree_repeatWhile {test test' : EvalM Bool} {body body' exceeded exceeded' : EvalM Unit}
    (tested : S.Agree k Eq test test') (done : S.Agree k (fun _ _ => True) body body')
    (ended : S.Agree k (fun _ _ => True) exceeded exceeded') (rounds : Nat) :
    S.Agree k (fun _ _ => True) (Form.repeatWhile test body exceeded rounds)
      (Form.repeatWhile test' body' exceeded' rounds) := by
  induction rounds with
  | zero =>
    refine agree_bind tested fun holds _ equal => ?_
    subst equal
    split
    · exact ended
    · exact agree_pure trivial
  | succ rounds ih =>
    refine agree_bind tested fun holds _ equal => ?_
    subst equal
    split
    · exact agree_bind done fun _ _ _ => ih
    · exact agree_pure trivial

theorem eq_of_accepts {only count : Nat} (accepted : (Arity.exactly only).accepts count) :
    count = only := by
  simpa [Arity.accepts] using accepted

theorem ne_nil_of_accepts {least : Nat} {args : List Expr}
    (accepted : (Arity.atLeast (least + 1)).accepts args.length) : args ≠ [] := by
  rintro rfl
  simp [Arity.accepts] at accepted

variable (both : S.Evaluators ev ev')
include both

theorem agree_numberOf (builtin : Builtin) {arg arg' : Expr} (same : S.expr arg arg') :
    S.Agree k Eq (Form.numberOf ev builtin arg) (Form.numberOf ev' builtin arg') := by
  refine agree_bind (both.agree same) fun v w values => ?_
  cases S.matched values with
  | number => exact agree_pure rfl
  | nothing | string | boolean | symbol | list => exact agree_fail nofun (loc_of_expr same)

theorem agree_arithmetic (op : Operation) {args args' : List Expr}
    (same : List.Forall₂ S.expr args args') :
    S.Agree k S.value (Form.arithmetic ev op args) (Form.arithmetic ev' op args') := by
  have operate (x y : Float) (arg arg' : Expr) (numbers : x = y) (same : S.expr arg arg') :
      S.Agree k Eq (Form.operate ev op x arg) (Form.operate ev' op y arg') := by
    subst numbers
    refine agree_bind (agree_numberOf both _ same) fun z _ equal => ?_
    subst equal
    split
    · exact agree_fail nofun (loc_of_expr same)
    · exact agree_pure rfl
  cases same with
  | nil => exact agree_pure (S.number _)
  | cons first rest =>
    cases rest with
    | nil =>
      refine agree_bind (operate _ _ _ _ rfl first) fun x _ equal => ?_
      subst equal
      exact agree_pure (S.number _)
    | cons second rest =>
      refine agree_bind (agree_numberOf both _ first) fun x _ equal => ?_
      refine agree_bind (agree_foldlM (.cons second rest) operate equal) fun y _ equal => ?_
      subst equal
      exact agree_pure (S.number _)

theorem agree_comparison (rel : Relation) {args args' : List Expr}
    (same : List.Forall₂ S.expr args args') (some : args ≠ []) :
    S.Agree k S.value (Form.comparison ev rel args) (Form.comparison ev' rel args') := by
  refine agree_bind (agree_mapM same fun _ _ => both.agree) fun vs ws values => ?_
  obtain ⟨values, length⟩ := values
  cases same with
  | nil => contradiction
  | cons first rest =>
    cases values with
    | nil => contradiction
    | cons left values =>
      refine agree_bind (agree_chained rel first left (forall₂_zip rest values)) fun b _ equal => ?_
      subst equal
      exact agree_pure (S.boolean b)

/-- A value that must not be missing. -/
theorem agree_present {arg arg' : Expr} (same : S.expr arg arg') {f : Fault}
    (arises : ¬ f.Absent S.value) :
    S.Agree k S.value
      (do match ← ev arg with
        | .nothing => fail f arg.loc
        | value => pure value)
      (do match ← ev' arg' with
        | .nothing => fail f arg'.loc
        | value => pure value) := by
  refine agree_bind (both.agree same) fun v w values => ?_
  cases S.matched values with
  | nothing => exact agree_fail arises (loc_of_expr same)
  | number | string | boolean | symbol | list => exact agree_pure values

theorem agree_equality {args args' : List Expr} (same : List.Forall₂ S.expr args args')
    (some : args ≠ []) : S.Agree k S.value (Form.equality ev args) (Form.equality ev' args') := by
  have comparands (a b : Expr × Nat) (pair : S.expr a.1 b.1 ∧ a.2 = b.2) :
      S.Agree k S.value (Form.comparand ev a.1 a.2) (Form.comparand ev' b.1 b.2) := by
    rw [pair.2]
    exact agree_present both pair.1 nofun
  refine agree_bind (agree_mapM (forall₂_zipIdx same 0) comparands) fun vs ws values => ?_
  obtain ⟨values, length⟩ := values
  cases same with
  | nil => contradiction
  | cons first rest =>
    cases values with
    | nil => contradiction
    | cons head others =>
      have all := all_equals (S.matched head) (others.imp fun _ _ => S.matched)
      cases S.matched head with
      | symbol | list =>
        refine agree_fail (fun absent => ?_) (loc_of_expr first)
        cases absent with
        | equality missing => cases missing _ _ head rfl rfl
      | nothing | number | string | boolean =>
        dsimp only
        rw [all]
        exact agree_pure (S.boolean _)

theorem agree_choice {condition condition' yes yes' no no' : Expr}
    (tested : S.expr condition condition') (first : S.expr yes yes') (second : S.expr no no') :
    S.Agree k S.value (Form.choice ev condition yes no)
      (Form.choice ev' condition' yes' no') := by
  refine agree_bind (both.agree tested) fun v w values => ?_
  have chosen (b : Bool) : S.expr (if b then yes else no) (if b then yes' else no') := by
    cases b <;> assumption
  cases S.matched values with
  | nothing => exact agree_fail nofun (loc_of_expr tested)
  | number | string | boolean => exact agree_present both (chosen _) nofun
  | symbol | list =>
    refine agree_fail (fun absent => ?_) (loc_of_expr tested)
    cases absent with
    | choice missing => cases missing _ _ values rfl rfl

theorem agree_loop {l l' : Int} {condition condition' : Expr} {forms forms' : List Expr}
    (located : S.loc l l') (tested : S.expr condition condition')
    (same : List.Forall₂ S.expr forms forms') :
    S.Agree k S.value (Form.loop ev l condition forms) (Form.loop ev' l' condition' forms') := by
  have test : S.Agree k Eq (Form.holdsNow ev condition) (Form.holdsNow ev' condition') := by
    refine agree_bind (both.agree tested) fun v w values => ?_
    cases S.matched values with
    | number | string | boolean => exact agree_pure rfl
    | nothing | symbol | list =>
      refine agree_fail (fun absent => ?_) (loc_of_expr tested)
      cases absent with
      | loop truthful => exact truthful _ _ values rfl rfl
  have body : S.Agree k (fun _ _ => True) (forms.forM fun form => discard (ev form))
      (forms'.forM fun form => discard (ev' form)) :=
    agree_forM same fun _ _ form => agree_bind (both.agree form) fun _ _ _ => agree_pure trivial
  have exceeded : S.Agree k (fun _ _ => True) (fail .tooManyRounds l : EvalM Unit)
      (fail .tooManyRounds l' : EvalM Unit) := agree_fail nofun located
  refine agree_bind (agree_repeatWhile test body exceeded maxRounds) fun _ _ _ => ?_
  exact agree_pure (S.boolean false)

/-- A binding ends alike where machines stay related once the name is bound. -/
theorem agree_bindOne_of {binding binding' : Expr} (same : S.expr binding binding')
    (kept : ∀ {m n v w} name, S.value v w → v ≠ .nothing → S.machine k m n →
      S.machine k (after (Sketch.assign 0 name v) m) (after (Sketch.assign 0 name w) n)) :
    S.Agree k (fun _ _ => True) (Form.bindOne ev binding) (Form.bindOne ev' binding') := by
  have malformed : S.Agree k (fun _ _ => True)
      (fail .malformedBinding binding.loc : EvalM Unit)
      (fail .malformedBinding binding'.loc : EvalM Unit) := agree_fail nofun (loc_of_expr same)
  cases S.paired same with
  | nothing => exact agree_stuck same
  | number | string | boolean | symbol => exact malformed
  | list _ elements =>
    cases elements with
    | nil => exact malformed
    | cons first rest =>
      cases rest with
      | nil => cases S.paired first <;> exact malformed
      | cons second rest =>
        cases rest with
        | cons => cases S.paired first <;> exact malformed
        | nil =>
          cases S.paired first with
          | nothing => exact agree_stuck first
          | number | string | boolean | list => exact malformed
          | @symbol _ _ name =>
            refine agree_bind (both.agree second) fun v w values => ?_
            have assigned (present : v ≠ .nothing) : S.Agree k (fun _ _ => True)
                (Sketch.assign 0 name v) (Sketch.assign 0 name w) :=
              fun m n machines => .ok trivial (kept name values present machines)
            cases S.matched values with
            | nothing => exact agree_fail nofun (loc_of_expr second)
            | number | string | boolean | symbol | list => exact assigned nofun

theorem agree_bindOne {binding binding' : Expr} (same : S.expr binding binding') :
    S.Agree (k + 1) (fun _ _ => True) (Form.bindOne ev binding) (Form.bindOne ev' binding') :=
  agree_bindOne_of both same S.bind

theorem agree_binding {bindings bindings' : Expr} {forms forms' : List Expr}
    (same : S.expr bindings bindings') (later : List.Forall₂ S.expr forms forms') :
    S.Agree k S.value (Form.binding ev bindings forms) (Form.binding ev' bindings' forms') := by
  cases S.paired same with
  | nothing => exact agree_stuck same
  | number | string | boolean | symbol => exact agree_fail nofun (loc_of_expr same)
  | list _ elements =>
    apply agree_inScope
    refine agree_bind (agree_forM elements fun _ _ => agree_bindOne both) fun _ _ _ => ?_
    exact agree_foldlM later (fun _ _ _ _ _ form => both.agree form) S.nothing

/-- A place stands for the same name on both sides. -/
theorem agree_placeName? {place place' : Expr} (same : S.expr place place') :
    S.Agree k (fun a b => a = b ∧ ∀ name, a = some name → Designates S.value place name)
      (Form.placeName? ev place) (Form.placeName? ev' place') := by
  cases S.paired same with
  | symbol =>
    refine agree_pure ⟨rfl, fun name found => ?_⟩
    cases found
    exact .inl ⟨_, rfl⟩
  | nothing => exact agree_stuck same
  | number | string | boolean | list =>
    refine agree_bind (agree_attempt (both.agree same)) fun v w values => ?_
    cases values with
    | none => exact agree_pure ⟨rfl, nofun⟩
    | some values =>
      cases S.matched values with
      | symbol =>
        refine agree_pure ⟨rfl, fun name found => ?_⟩
        cases found
        exact .inr ⟨_, _, values⟩
      | nothing | number | string | boolean | list => exact agree_pure ⟨rfl, nofun⟩

/-- The value is evaluated in between, but that cannot move the binding to another scope. -/
theorem ends_assigned {place place' e e' : Expr} {name : Bytes} {m n : Machine} {i j : Nat}
    (calls : Calls S.expr .assignment [place, e] [place', e'])
    (designated : Designates S.value place name) (valued : S.expr e e')
    (machines : S.machine k m n) (chosen : Scopes.owner? m.scopes name = some i)
    (chosen' : Scopes.owner? n.scopes name = some j) :
    S.Ends k S.value (assignIn ev i name e m) (assignIn ev' j name e' n) := by
  have missing : S.Agree k S.value (fail .missingValue e.loc) (fail .missingValue e'.loc) :=
    agree_fail nofun (loc_of_expr valued)
  have ended := both.agree valued m n machines
  refine ends_bind ended fun v w m' n' run run' values machines => ?_
  have kept := both.names e m
  have kept' := both.names' e' n
  rw [after_of_ok run] at kept
  rw [after_of_ok run'] at kept'
  have assigned (present : v ≠ .nothing) :=
    S.assign calls designated ((Scopes.owner?_congr kept name).trans chosen)
      ((Scopes.owner?_congr kept' name).trans chosen') values present machines
  cases S.matched values with
  | nothing => exact missing m' n' machines
  | number | string | boolean | symbol | list => exact .ok values (assigned nofun)

theorem agree_assignment {place place' e e' : Expr}
    (calls : Calls S.expr .assignment [place, e] [place', e']) (placed : S.expr place place')
    (valued : S.expr e e') :
    S.Agree k S.value (Form.assignment ev place e) (Form.assignment ev' place' e') := by
  refine agree_bind (agree_placeName? both placed) fun found found' names => ?_
  obtain ⟨rfl, designated⟩ := names
  cases found with
  | none => exact agree_fail nofun (loc_of_expr placed)
  | some name =>
    have unbound : S.Agree k S.value (fail .unboundPlace place.loc)
        (fail .unboundPlace place'.loc) := agree_fail nofun (loc_of_expr placed)
    intro m n machines
    have held := S.owner calls (designated name rfl) machines
    dsimp only
    rw [owner?_bind, owner?_bind]
    cases chosen : Scopes.owner? m.scopes name with
    | none =>
      cases chosen' : Scopes.owner? n.scopes name with
      | none => exact unbound m n machines
      | some j => simp [chosen, chosen'] at held
    | some i =>
      cases chosen' : Scopes.owner? n.scopes name with
      | none => simp [chosen, chosen'] at held
      | some j =>
        exact ends_assigned both calls (designated name rfl) valued machines chosen chosen'

/-- All numbers are the same ones, and as many as there are arguments. -/
theorem agree_numbers (builtin : Builtin) {args args' : List Expr}
    (same : List.Forall₂ S.expr args args') :
    S.Agree k (fun xs ys => xs = ys ∧ xs.length = args.length)
      (args.mapM (Form.numberOf ev builtin)) (args'.mapM (Form.numberOf ev' builtin)) := by
  refine agree_imp ?_ (agree_mapM same fun _ _ => agree_numberOf both builtin)
  rintro xs ys ⟨equal, length⟩
  exact ⟨List.forall₂_eq_eq_eq ▸ equal, length⟩

theorem agree_rgb {args args' : List Expr} (same : List.Forall₂ S.expr args args')
    (three : args.length = 3) :
    S.Agree k S.value (Form.rgb ev args) (Form.rgb ev' args') := by
  refine agree_bind (agree_numbers both .rgb same) fun xs ys numbers => ?_
  obtain ⟨rfl, length⟩ := numbers
  obtain ⟨r, g, b, rfl⟩ := List.length_eq_three.1 (length.trans three)
  exact agree_pure (S.string _)

theorem agree_setInk {ink : Ink} {arg arg' : Expr} (calls : Calls S.expr (.setInk ink) [arg] [arg'])
    (same : S.expr arg arg') :
    S.Agree k S.value (Form.setInk ev ink arg) (Form.setInk ev' ink arg') := by
  refine agree_bind (both.agree same) fun v w values => ?_
  cases S.matched values with
  | @string _ _ colour =>
    exact fun m n machines => .ok S.nothing (S.setColour colour (.inl calls) machines)
  | nothing | number | boolean | symbol | list => exact agree_fail nofun (loc_of_expr same)

theorem agree_drawing (builtin : Builtin) {args args' : List Expr}
    {shape : Float → Float → Float → Float → Canvas → List DrawCall}
    (same : List.Forall₂ S.expr args args') (four : args.length = 4)
    (drawn : ∀ {m n} a b c d, S.machine k m n →
      S.machine k (after (draw (shape a b c d)) m) (after (draw (shape a b c d)) n)) :
    S.Agree k S.value (Form.drawing ev builtin shape args)
      (Form.drawing ev' builtin shape args') := by
  refine agree_bind (agree_numbers both builtin same) fun xs ys numbers => ?_
  obtain ⟨rfl, length⟩ := numbers
  obtain ⟨a, b, c, d, rfl⟩ : ∃ a b c d, xs = [a, b, c, d] := by
    rw [four] at length
    match xs, length with
    | [a, b, c, d], _ => exact ⟨a, b, c, d, rfl⟩
  exact fun m n machines => .ok S.nothing (drawn a b c d machines)

/-- With a number of arguments that is accepted, no form lacks one. -/
theorem agree_apply {l l' : Int} {builtin : Builtin} {args args' : List Expr}
    (calls : Calls S.expr builtin args args') (located : S.loc l l')
    (same : List.Forall₂ S.expr args args') (accepted : builtin.arity.accepts args.length)
    (ready : ∀ name, builtin ≠ .reserved name) :
    S.Agree k S.value (builtin.apply ev l args) (builtin.apply ev' l' args') := by
  cases builtin with
  | arithmetic op => exact agree_arithmetic both op same
  | comparison rel =>
    exact agree_comparison both rel same (ne_nil_of_accepts accepted)
  | equality => exact agree_equality both same (ne_nil_of_accepts accepted)
  | choice =>
    obtain ⟨condition, yes, no, rfl⟩ := List.length_eq_three.1 (eq_of_accepts accepted)
    match same with
    | .cons tested (.cons first (.cons second .nil)) =>
      exact agree_choice both tested first second
  | binding =>
    cases same with
    | nil => exact absurd rfl (ne_nil_of_accepts accepted)
    | cons bindings forms => exact agree_binding both bindings forms
  | assignment =>
    obtain ⟨place, e, rfl⟩ := List.length_eq_two.1 (eq_of_accepts accepted)
    match same with
    | .cons placed (.cons valued .nil) => exact agree_assignment both calls placed valued
  | loop =>
    cases same with
    | nil => exact absurd rfl (ne_nil_of_accepts accepted)
    | cons condition forms => exact agree_loop both located condition forms
  | rgb => exact agree_rgb both same (eq_of_accepts accepted)
  | setInk ink =>
    obtain ⟨arg, rfl⟩ := List.length_eq_one_iff.1 (eq_of_accepts accepted)
    match same with
    | .cons only .nil => exact agree_setInk both calls only
  | clearInk ink =>
    obtain rfl := List.length_eq_zero_iff.1 (eq_of_accepts accepted)
    cases same
    exact fun m n machines => .ok S.nothing (S.setColour noColour (.inr calls) machines)
  | rect =>
    exact agree_drawing both .rect same (eq_of_accepts accepted)
      fun x y w h => S.rect x y w h calls
  | line =>
    exact agree_drawing both .line same (eq_of_accepts accepted)
      fun x₁ y₁ x₂ y₂ => S.line x₁ y₁ x₂ y₂ calls
  | reserved name => exact absurd rfl (ready name)

/-- A call by name, once the number of arguments is checked. -/
theorem agree_checked {l l' : Int} {builtin : Builtin} {args args' : List Expr}
    (calls : Calls S.expr builtin args args') (located : S.loc l l')
    (same : List.Forall₂ S.expr args args') (ready : ∀ name, builtin ≠ .reserved name) :
    S.Agree k S.value
      (if builtin.arity.accepts args.length then builtin.apply ev l args
        else fail (.wrongArity builtin) l)
      (if builtin.arity.accepts args'.length then builtin.apply ev' l' args'
        else fail (.wrongArity builtin) l') := by
  rw [← same.length_eq]
  split
  · next accepted => exact agree_apply both calls located same accepted ready
  · exact agree_fail nofun located

/-- Related lists call the same built-in, or fail to for the same reason. -/
theorem agree_call {l l' : Int} {elements elements' : List Expr}
    (same : S.expr (.list l elements) (.list l' elements')) :
    S.Agree k S.value (call ev l elements) (call ev' l' elements') := by
  have located : S.loc l l' := loc_of_expr same
  have uncallable : S.Agree k S.value
      (fail (.notCallable (Expr.list l elements).text) l)
      (fail (.notCallable (Expr.list l' elements').text) l') := by
    rw [S.text same]
    exact agree_fail nofun located
  cases S.paired same with
  | list _ related =>
    cases related with
    | nil => exact agree_fail nofun located
    | cons head args =>
      cases S.paired head with
      | nothing => exact agree_stuck head
      | number | string | boolean | list => exact uncallable
      | @symbol h h' name headLocated =>
        unfold call
        dsimp only
        cases named : Builtin.ofName? name with
        | none => exact uncallable
        | some builtin =>
          rw [Builtin.eq_name_of_ofName? named] at same
          have calls : Calls S.expr builtin _ _ := ⟨l, l', h, h', same⟩
          cases builtin with
          | reserved word => exact agree_fail nofun headLocated
          | arithmetic | comparison | equality | choice | binding | assignment | loop | rgb
          | setInk | clearInk | rect | line => exact agree_checked both calls located args nofun

omit both

theorem agree_evalSymbol {l l' : Int} {name : Bytes}
    (same : S.expr (.symbol l name) (.symbol l' name)) :
    S.Agree k S.value (evalSymbol l name) (evalSymbol l' name) := by
  unfold evalSymbol
  split
  · exact agree_pure (S.truth true same)
  split
  · exact agree_pure (S.truth false same)
  have found : S.Agree k S.value (Sketch.lookup name) (Sketch.lookup name) :=
    fun m n machines => .ok (S.lookup same machines) machines
  refine agree_bind found fun v w values => ?_
  cases S.matched values with
  | nothing => exact agree_fail nofun (loc_of_expr same)
  | number | string | boolean | symbol | list => exact agree_pure values

/-- Neither the room nor tracing matters to what is no list. -/
theorem agree_atom (tracing tracing' : Bool) (room room' : Nat) (level level' : Int) {e e' : Expr}
    (same : S.expr e e') (atom : e.kind ≠ .list) :
    S.Agree k S.value (evalWithin tracing room level e)
      (evalWithin tracing' room' level' e') := by
  cases S.paired same with
  | nothing =>
    rw [evalWithin, evalWithin]
    exact agree_stuck same
  | number | string | boolean =>
    rw [evalWithin, evalWithin]
    exact agree_pure (S.literal same nofun nofun)
  | symbol =>
    rw [evalWithin, evalWithin]
    exact agree_evalSymbol same
  | list => contradiction

/-- Relations that also hold when both evaluations are traced, and have the same room. -/
structure Traceable (S : Simulation) : Prop where
  deep : S.fault .tooDeep
  enter : ∀ {k m n e e'} level, S.expr e e' → S.machine k m n →
    S.machine k (m.record (.enter level e)) (n.record (.enter level e'))
  leave : ∀ {k m n v w} level, S.value v w → S.machine k m n →
    S.machine k (m.record (.leave level (.ok v))) (n.record (.leave level (.ok w)))
  error : ∀ {k m n f l l'} level, S.loc l l' → S.machine k m n →
    S.machine k (m.record (.leave level (.error ⟨f, l⟩)))
      (n.record (.leave level (.error ⟨f, l'⟩)))

namespace Traceable

variable (traceable : S.Traceable)
include traceable

theorem agree_traced (tracing : Bool) (level : Int) {e e' : Expr} {body body' : EvalM Expr}
    (same : S.expr e e') (inner : S.Agree k S.value body body') :
    S.Agree k S.value (traced tracing level e body) (traced tracing level e' body') := by
  cases tracing with
  | false => exact inner
  | true =>
    intro m n machines
    have ended := inner _ _ (traceable.enter level same machines)
    simp only [traced, ↓reduceIte]
    generalize body (m.record (.enter level e)) = r at ended
    generalize body' (n.record (.enter level e')) = r' at ended
    cases ended with
    | ok values machines => exact .ok values (traceable.leave level values machines)
    | error halts machines =>
      cases halts with
      | error allowed located =>
        exact .error (.error allowed located) (traceable.error level located machines)
      | stuck missing => exact .error (.stuck missing) machines

/-- Evaluations with the same room of related expressions end alike. -/
theorem agree_evalWithin (tracing : Bool) (room : Nat) (level : Int) {e e' : Expr}
    (same : S.expr e e') :
    S.Agree k S.value (evalWithin tracing room level e) (evalWithin tracing room level e') := by
  induction room generalizing k level e e' with
  | zero =>
    cases S.paired same with
    | nothing | number | string | boolean | symbol => exact agree_atom _ _ _ _ _ _ same nofun
    | list located =>
      refine traceable.agree_traced tracing level same fun m n machines => ?_
      exact .error (.error traceable.deep located) machines
  | succ room ih =>
    cases S.paired same with
    | nothing | number | string | boolean | symbol => exact agree_atom _ _ _ _ _ _ same nofun
    | list =>
      have both : S.Evaluators (evalWithin tracing room (level + 1))
          (evalWithin tracing room (level + 1)) :=
        ⟨ih (level + 1), lasting_sameNames.evalWithin tracing room (level + 1),
          lasting_sameNames.evalWithin tracing room (level + 1)⟩
      exact traceable.agree_traced tracing level same (agree_call both same)

end Traceable

end Simulation

end Sketch
