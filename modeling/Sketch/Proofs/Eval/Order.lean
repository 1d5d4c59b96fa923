import Sketch.Proofs.Eval.Relocation
import Sketch.Proofs.Eval.Tracing
import Sketch.Proofs.Expr.Numbered

/-! Without loops nothing is evaluated twice, and what is evaluated is evaluated in the order in
which it is written. Every other built-in goes through its arguments once, from the left to the
right, and may only leave some of them out. -/
namespace Sketch

open scoped List

namespace Course

variable {α β : Type}

/-- Whatever the answers are, the course asks for expressions that stand one after another among
these nodes, each with all that is inside it. -/
inductive InOrder : List Expr → Course α → Prop where
  | done : InOrder nodes (.done value)
  | halt : InOrder nodes (.halt cause)
  | look : (∀ scopes, InOrder nodes (next scopes)) → InOrder nodes (.look next)
  | act : InOrder nodes next → InOrder nodes (.act step next)
  | ask : e.nodes ++ later <+ nodes → (∀ outcome, InOrder later (next outcome)) →
    InOrder nodes (.ask e next)

namespace InOrder

variable {nodes more : List Expr} {x : Course α}

theorem mono (ordered : x.InOrder nodes) (among : nodes <+ more) : x.InOrder more := by
  induction ordered generalizing more with
  | done => exact .done
  | halt => exact .halt
  | look _ ih => exact .look fun scopes => ih scopes among
  | act _ ih => exact .act (ih among)
  | ask first later _ => exact .ask (first.trans among) later

theorem bind {f : α → Course β} (first : x.InOrder nodes)
    (later : ∀ value, (f value).InOrder more) : (x >>= f).InOrder (nodes ++ more) := by
  induction first with
  | done => exact (later _).mono (List.sublist_append_right _ _)
  | halt => exact .halt
  | look _ ih => exact .look ih
  | act _ ih => exact .act ih
  | ask among _ ih =>
    refine .ask ?_ ih
    rw [← List.append_assoc]
    exact among.append_right more

/-- What follows asks for nothing more. -/
theorem andThen {f : α → Course β} (first : x.InOrder nodes)
    (later : ∀ value, (f value).InOrder []) : (x >>= f).InOrder nodes := by
  simpa using first.bind later

theorem leaving (ordered : x.InOrder nodes) : x.leaving.InOrder nodes := by
  induction ordered with
  | done => exact .act .done
  | halt => exact .act .halt
  | look _ ih => exact .look ih
  | act _ ih => exact .act ih
  | ask among _ ih => exact .ask among ih

theorem mapM {f : β → Course α} {within : β → List Expr} (each : ∀ b, (f b).InOrder (within b))
    (list : List β) : (list.mapM f).InOrder (list.flatMap within) := by
  induction list with
  | nil => exact .done
  | cons b rest ih =>
    rw [List.mapM_cons, List.flatMap_cons]
    exact (each b).bind fun _ => ih.andThen fun _ => .done

theorem foldlM {f : α → β → Course α} {within : β → List Expr}
    (each : ∀ a b, (f a b).InOrder (within b)) (list : List β) (start : α) :
    (list.foldlM f start).InOrder (list.flatMap within) := by
  induction list generalizing start with
  | nil => exact .done
  | cons b rest ih =>
    rw [List.foldlM_cons, List.flatMap_cons]
    exact (each start b).bind fun next => ih next

theorem forM {f : β → Course Unit} {within : β → List Expr} (each : ∀ b, (f b).InOrder (within b))
    (list : List β) : (list.forM f).InOrder (list.flatMap within) := by
  induction list with
  | nil => exact .done
  | cons b rest ih => exact (each b).bind fun _ => ih

/-- Nothing but one expression is asked for. -/
theorem single {e : Expr} {next : Outcome → Course α}
    (later : ∀ outcome, (next outcome).InOrder []) : (Course.ask e next).InOrder e.nodes :=
  .ask (by rw [List.append_nil]) later

theorem eval (e : Expr) : (Course.eval e).InOrder e.nodes := by
  refine .single fun outcome => ?_
  cases outcome with
  | ok => exact .done
  | error => exact .halt

theorem numberOf (builtin : Builtin) (arg : Expr) :
    (Course.numberOf builtin arg).InOrder arg.nodes := by
  refine (eval arg).andThen fun value => ?_
  split
  · exact .done
  · exact .halt

theorem operate (op : Operation) (x : Float) (arg : Expr) :
    (Course.operate op x arg).InOrder arg.nodes := by
  refine (numberOf _ arg).andThen fun y => ?_
  split
  · exact .halt
  · exact .done

theorem arithmetic (op : Operation) (args : List Expr) :
    (Course.arithmetic op args).InOrder (args.flatMap Expr.nodes) := by
  unfold Course.arithmetic
  split
  · exact .done
  · simpa using operate op op.unit _
  · exact (numberOf ..).bind fun x => foldlM (operate op) _ x

theorem chained (rel : Relation) (arg left : Expr) (rest : List (Expr × Expr)) :
    (Course.chained rel arg left rest).InOrder [] := by
  induction rest generalizing arg left with
  | nil => exact .done
  | cons next rest ih =>
    unfold Course.chained
    split
    · split
      · exact ih _ _
      · exact .done
    · exact .halt

theorem comparison (rel : Relation) (args : List Expr) :
    (Course.comparison rel args).InOrder (args.flatMap Expr.nodes) := by
  refine (mapM eval args).andThen fun values => ?_
  split
  · exact chained ..
  · exact .halt

theorem equality (args : List Expr) :
    (Course.equality args).InOrder (args.flatMap Expr.nodes) := by
  have comparand (entry : Expr × Nat) : (Course.comparand entry).InOrder entry.1.nodes := by
    refine (eval entry.1).andThen fun value => ?_
    split
    · exact .halt
    · exact .done
  have same : args.zipIdx.flatMap (fun entry => entry.1.nodes) = args.flatMap Expr.nodes := by
    rw [← List.flatMap_map Prod.fst Expr.nodes, List.zipIdx_map_fst]
  refine same ▸ (mapM comparand _).andThen fun values => ?_
  split
  · split
    · exact .halt
    · exact .halt
    · exact .done
  · exact .halt

/-- Only one of the branches is asked for, after the condition. -/
theorem choice (condition yes no : Expr) :
    (Course.choice condition yes no).InOrder ([condition, yes, no].flatMap Expr.nodes) := by
  refine (eval condition).bind fun value => ?_
  split
  · exact .halt
  split
  · exact .halt
  · next truth _ =>
    have branch : (if truth then yes else no).nodes <+ [yes, no].flatMap Expr.nodes := by
      cases truth <;> simp
    refine InOrder.mono ((eval _).andThen fun result => ?_) branch
    split
    · exact .halt
    · exact .done

theorem bindOne (bound : Expr) : (Course.bindOne bound).InOrder bound.nodes := by
  unfold Course.bindOne
  split
  · next listLoc symbolLoc name expr =>
    have second : expr.nodes <+ (Expr.list listLoc [.symbol symbolLoc name, expr]).nodes := by
      simp [Expr.nodes, Expr.inside, Expr.insideAll]
    refine InOrder.mono ((eval expr).andThen fun value => ?_) second
    split
    · exact .halt
    · exact .act .done
  · exact .halt
  · exact .halt
  · exact .halt

theorem binding (forms : List Expr) (bindings : Expr) :
    (Course.binding forms bindings).InOrder ((bindings :: forms).flatMap Expr.nodes) := by
  unfold Course.binding
  split
  · next loc bindings =>
    have inner := (forM bindOne bindings).bind fun _ => foldlM (fun _ => eval) forms .nothing
    rw [← Expr.insideAll_eq_flatMap] at inner
    refine .act (inner.leaving.mono ?_)
    exact .cons _ (.refl _)
  · exact .halt
  · exact .halt

theorem placeName? (place : Expr) : (Course.placeName? place).InOrder place.nodes := by
  unfold Course.placeName?
  split
  · exact .done
  · exact .halt
  · refine andThen (.single fun outcome => ?_) fun found => ?_
    · rcases outcome with (_ | _) | _
      · exact .done
      · exact .halt
      · exact .done
    · split
      · exact .done
      · exact .done

theorem assignment (place expr : Expr) :
    (Course.assignment place expr).InOrder ([place, expr].flatMap Expr.nodes) := by
  refine (placeName? place).bind fun name => ?_
  split
  · next name =>
    have looked : (Course.look fun scopes => pure (scopes.owner? name)).InOrder [] :=
      .look fun _ => .done
    refine looked.bind fun scope => ?_
    split
    · refine (eval expr).bind fun value => ?_
      split
      · exact .halt
      · exact .act .done
    · exact .halt
  · exact .halt

theorem rgb (args : List Expr) : (Course.rgb args).InOrder (args.flatMap Expr.nodes) := by
  refine (mapM (numberOf _) args).andThen fun numbers => ?_
  split
  · exact .done
  · exact .halt

theorem setInk (ink : Ink) (arg : Expr) : (Course.setInk ink arg).InOrder arg.nodes := by
  refine (eval arg).andThen fun value => ?_
  split
  · exact .act .done
  · exact .halt

theorem drawing (builtin : Builtin)
    (shape : Float → Float → Float → Float → Canvas → List DrawCall) (args : List Expr) :
    (Course.drawing builtin shape args).InOrder (args.flatMap Expr.nodes) := by
  refine (mapM (numberOf _) args).andThen fun numbers => ?_
  split
  · exact .act .done
  · exact .halt

theorem apply {builtin : Builtin} (loopless : builtin ≠ .loop) (loc : Int) (args : List Expr) :
    (Course.apply loc builtin args).InOrder (args.flatMap Expr.nodes) := by
  unfold Course.apply
  split
  · exact (arithmetic ..).andThen fun _ => .done
  · exact (comparison ..).andThen fun _ => .done
  · exact (equality _).andThen fun _ => .done
  · exact choice ..
  · exact binding ..
  · exact assignment ..
  · exact absurd rfl loopless
  · exact (rgb _).andThen fun _ => .done
  · exact (setInk ..).bind fun _ => .done
  · exact .act .done
  · exact (drawing ..).andThen fun _ => .done
  · exact (drawing ..).andThen fun _ => .done
  · exact .halt

/-- A list that is no loop asks for what is in it in its order. -/
theorem call {loc : Int} {elements : List Expr}
    (loopless : (Expr.list loc elements).head? ≠ some (bytes "while")) :
    (Course.call loc elements).InOrder (Expr.insideAll elements) := by
  unfold Course.call
  split
  · exact .halt
  · exact .halt
  · next headLoc name args =>
    split
    · exact .halt
    · exact .halt
    · next builtin _ known =>
      split
      · have other : builtin ≠ .loop := by
          rintro rfl
          exact loopless (congrArg some (Builtin.eq_name_of_ofName? known))
        rw [Expr.insideAll_cons, Expr.insideAll_eq_flatMap]
        exact (apply other loc args).mono (List.sublist_append_right _ _)
      · exact .halt
  · exact .halt

end InOrder

end Course

def Deed.started? : Deed → Option Expr
  | .start _ e => some e
  | .act _ | .finish .. => none

/-- The expressions whose evaluation starts, one after another. -/
def started (deeds : List Deed) : List Expr := deeds.filterMap Deed.started?

@[simp] theorem started_append (deeds more : List Deed) :
    started (deeds ++ more) = started deeds ++ started more :=
  List.filterMap_append

@[simp] theorem started_start (level : Int) (e : Expr) (rest : List Deed) :
    started (.start level e :: rest) = e :: started rest := rfl

@[simp] theorem started_finish (level : Int) (e : Expr) (outcome : Outcome) :
    started [.finish level e outcome] = [] := rfl

/-- What a course asks for in order starts in that order, if each of them keeps to its own nodes. -/
theorem Course.InOrder.started_sublist {α : Type} {nodes : List Expr} {x : Course α}
    (ordered : x.InOrder nodes) {inner : Expr → Machine → List Deed} (ev : Evaluator)
    (each : ∀ e ∈ nodes, ∀ m, started (inner e m) <+ e.nodes) (m : Machine) :
    started (x.deeds inner ev m) <+ nodes := by
  induction ordered generalizing m with
  | done | halt => exact List.nil_sublist _
  | look _ ih => exact ih m.scopes each m
  | act _ ih => exact ih each _
  | @ask later nodes next e among _ ih =>
    have first := each e (among.subset (by simp [Expr.nodes])) m
    have rest := ih (settle (ev e) m).1 (fun e member => each e (among.subset (by simp [member])))
      (settle (ev e) m).2
    rw [Course.deeds, started_append]
    exact (first.append rest).trans among

theorem Expr.heads_subset {e node : Expr} (member : node ∈ e.nodes) : node.heads ⊆ e.heads := by
  intro name headed
  obtain ⟨list, inner, named⟩ := List.mem_filterMap.1 headed
  exact List.mem_filterMap.2 ⟨list, nodes_subset_nodes member inner, named⟩

/-- By induction on the room: what is inside a loopless expression is loopless itself. -/
theorem started_deedsWithin_sublist (tracing : Bool) (room : Nat) (level : Int) {e : Expr}
    (loopless : bytes "while" ∉ e.heads) (m : Machine) :
    started (deedsWithin tracing room level e m) <+ e.nodes := by
  induction room generalizing level e m with
  | zero =>
    rw [deedsWithin_simple tracing level (fun _ => rfl)]
    simp [Expr.nodes]
  | succ room ih =>
    cases e with
    | nothing | number | string | boolean | symbol =>
      rw [deedsWithin_simple tracing level (by simp [Expr.kind])]
      simp [Expr.nodes]
    | list loc elements =>
      have headed : (Expr.list loc elements).head? ≠ some (bytes "while") := by
        intro named
        exact loopless (List.mem_filterMap.2 ⟨_, Expr.mem_nodes_self _, named⟩)
      have inner : ∀ e ∈ Expr.insideAll elements, ∀ m,
          started (deedsWithin tracing room (level + 1) e m) <+ e.nodes := by
        intro e member m
        have within := Expr.heads_subset (List.mem_cons_of_mem (.list loc elements) member)
        exact ih (level + 1) (fun headed => loopless (within headed)) m
      have body := (Course.InOrder.call headed).started_sublist
        (evalWithin tracing room (level + 1)) inner
        ((Deed.start level (.list loc elements)).replay tracing m)
      rw [deedsWithin_list, List.cons_append]
      simpa [Expr.nodes, Expr.inside] using body

def Event.entered? : Event → Option Expr
  | .enter _ list => some list
  | .leave .. | .ink .. | .draw _ => none

/-- The lists that events enter. -/
def entered (events : List Event) : List Expr := events.filterMap Event.entered?

theorem entered_append (events more : List Event) :
    entered (events ++ more) = entered events ++ entered more :=
  List.filterMap_append

theorem entered_of_marks {events : List Event} (marks : ∀ event ∈ events, event.marks) :
    entered events = [] := by
  refine List.filterMap_eq_nil_iff.2 fun event member => ?_
  cases event with
  | enter | leave => exact absurd (marks _ member) (by simp [Event.marks])
  | ink | draw => rfl

/-- A deed that starts a list enters it, and no other deed enters anything. -/
theorem Deed.exists_events (deed : Deed) (m : Machine) :
    ∃ events : List Event, (deed.replay true m).log = events.reverse ++ m.log ∧
      entered events = (started [deed]).filter (·.kind == .list) := by
  cases deed with
  | start level e =>
    cases e with
    | list loc elements => exact ⟨[.enter level (.list loc elements)], rfl, rfl⟩
    | nothing | number | string | boolean | symbol => exact ⟨[], rfl, rfl⟩
  | act step =>
    exact ⟨_, step.log_perform m, entered_of_marks (step.marks_of_mem_events _)⟩
  | finish level e outcome =>
    cases e with
    | list loc elements =>
      rcases outcome with (e | _) | value
      · exact ⟨[.leave level (.error e)], rfl, rfl⟩
      · exact ⟨[], rfl, rfl⟩
      · exact ⟨[.leave level (.ok value)], rfl, rfl⟩
    | nothing | number | string | boolean | symbol => exact ⟨[], rfl, rfl⟩

theorem exists_events_replay (deeds : List Deed) (m : Machine) :
    ∃ events : List Event, (replay true m deeds).log = events.reverse ++ m.log ∧
      entered events = (started deeds).filter (·.kind == .list) := by
  induction deeds generalizing m with
  | nil => exact ⟨[], rfl, rfl⟩
  | cons deed rest ih =>
    obtain ⟨first, logged, here⟩ := deed.exists_events m
    obtain ⟨later, logged', there⟩ := ih (deed.replay true m)
    refine ⟨first ++ later, ?_, ?_⟩
    · show (replay true (deed.replay true m) rest).log = _
      rw [logged', logged, List.reverse_append, List.append_assoc]
    · rw [entered_append, here, there, ← List.filter_append, ← started_append]
      rfl

/-- The lists that a traced evaluation enters are those it starts. -/
theorem entered_eq_started {level : Int} {e : Expr} {m : Machine} {events : List Event}
    (logged : (evalTop true level e m).2.log = events.reverse ++ m.log) :
    entered events = (started (deeds true level e m)).filter (·.kind == .list) := by
  have replayed := replay_deedsWithin true (maxDepth - level).toNat level e m
  obtain ⟨others, told, lists⟩ := exists_events_replay (deeds true level e m) m
  rw [evalTop_eq_settle, settle_snd, eval, ← replayed] at logged
  obtain rfl : events = others :=
    List.reverse_injective (List.append_cancel_right (logged.symm.trans told))
  exact lists

/-- The lists entered since the logs were `log` and `log'` are related one by one. -/
def EnterAlike (expr : Expr → Expr → Prop) (log log' : List Event) (m n : Machine) : Prop :=
  ∃ events events' : List Event, m.log = events.reverse ++ log ∧ n.log = events'.reverse ++ log' ∧
    List.Forall₂ expr (entered events) (entered events')

namespace EnterAlike

variable {expr : Expr → Expr → Prop} {log log' : List Event} {m n : Machine}

theorem append (alike : EnterAlike expr log log' m n) {m' n' : Machine}
    {events events' : List Event} (logged : m'.log = events.reverse ++ m.log)
    (logged' : n'.log = events'.reverse ++ n.log)
    (same : List.Forall₂ expr (entered events) (entered events')) :
    EnterAlike expr log log' m' n' := by
  obtain ⟨before, before', first, first', related⟩ := alike
  refine ⟨before ++ events, before' ++ events', ?_, ?_, ?_⟩
  · rw [logged, first, List.reverse_append, List.append_assoc]
  · rw [logged', first', List.reverse_append, List.append_assoc]
  · rw [entered_append, entered_append]
    exact List.rel_append related same

theorem perform (alike : EnterAlike expr log log' m n) (step step' : Act) :
    EnterAlike expr log log' (step.perform m) (step'.perform n) := by
  refine alike.append (step.log_perform m) (step'.log_perform n) ?_
  rw [entered_of_marks (step.marks_of_mem_events _), entered_of_marks (step'.marks_of_mem_events _)]
  exact .nil

theorem record (alike : EnterAlike expr log log' m n) {event event' : Event}
    (same : List.Forall₂ expr (entered [event]) (entered [event'])) :
    EnterAlike expr log log' (m.record event) (n.record event') :=
  alike.append rfl rfl same

end EnterAlike

/-- The same simulation, with an eye on the lists that are entered. -/
def Simulation.entering (S : Simulation) (log log' : List Event) : Simulation :=
  { S with
    machine k m n := S.machine k m n ∧ EnterAlike S.expr log log' m n
    lookup same both := S.lookup same both.1
    enterScope both := ⟨S.enterScope both.1, both.2.perform .enterScope .enterScope⟩
    exitScope both := ⟨S.exitScope both.1, both.2.perform .exitScope .exitScope⟩
    bind name same some both :=
      ⟨S.bind name same some both.1, both.2.perform (.assign 0 name _) (.assign 0 name _)⟩
    owner calls designated both := S.owner calls designated both.1
    assign calls designated chosen chosen' same some both :=
      ⟨S.assign calls designated chosen chosen' same some both.1,
        both.2.perform (.assign _ _ _) (.assign _ _ _)⟩
    setColour colour calls both :=
      ⟨S.setColour colour calls both.1, both.2.perform (.setColour _ colour) (.setColour _ colour)⟩
    rect x y w h calls both := ⟨S.rect x y w h calls both.1, both.2.perform (.draw _) (.draw _)⟩
    line x₁ y₁ x₂ y₂ calls both :=
      ⟨S.line x₁ y₁ x₂ y₂ calls both.1, both.2.perform (.draw _) (.draw _)⟩ }

theorem Simulation.Traceable.entering {S : Simulation} (traceable : S.Traceable)
    (log log' : List Event) : (S.entering log log').Traceable where
  deep := traceable.deep
  enter level same both := ⟨traceable.enter level same both.1, both.2.record (.cons same .nil)⟩
  leave level same both := ⟨traceable.leave level same both.1, both.2.record .nil⟩
  error level located both := ⟨traceable.error level located both.1, both.2.record .nil⟩

theorem Simulation.Ends.machine_after {S : Simulation} {α β : Type} {value : α → β → Prop} {k : Nat}
    {x : EvalM α} {y : EvalM β} {m n : Machine} (ended : S.Ends k value (x m) (y n)) :
    S.machine k (after x m) (after y n) := by
  unfold after
  generalize x m = r at ended
  generalize y n = r' at ended
  cases ended with
  | ok _ machines => exact machines
  | error _ machines => exact machines

theorem Expr.head?_relocate (f : Int → Int) (e : Expr) : (e.relocate f).head? = e.head? := by
  cases e with
  | nothing | number | string | boolean | symbol => rfl
  | list loc elements =>
    rcases elements with _ | ⟨first, rest⟩
    · rfl
    · cases first <;> rfl

theorem Expr.heads_numbered (e : Expr) : e.numbered.heads = e.heads := by
  have same : Expr.head? ∘ Expr.relocate e.locAt = Expr.head? :=
    funext (Expr.head?_relocate e.locAt)
  rw [heads, heads, ← e.nodes_numbered, List.filterMap_map, same]

/-- Numbered, an expression enters its lists one for one. -/
theorem enterAlike_numbered (level : Int) {e : Expr} (clean : e.NullFree) (m : Machine) :
    EnterAlike (fun copy node => node = copy.relocate e.locAt) m.log m.log
      (evalTop true level e.numbered m).2 (evalTop true level e m).2 := by
  have start : Unlocated m.log m.log m m := ⟨rfl, rfl, [], [], rfl, rfl, rfl⟩
  have ended := ((traceable_relocation e.locAt m.log m.log).entering m.log m.log).agree_evalWithin
    true (maxDepth - level).toNat level ⟨clean.numbered, e.relocate_numbered.symm⟩ (k := 0) m m
    ⟨start, [], [], rfl, rfl, .nil⟩
  obtain ⟨events, events', logged, logged', same⟩ := ended.machine_after.2
  simp only [evalTop_eq_settle, settle_snd]
  exact ⟨events, events', logged, logged', same.imp fun _ _ related => related.2⟩

/-- An expression without loops starts to evaluate each of its nodes at most once, in the order in
which they are written, whatever is evaluated: atoms and lists, with tracing or without it. So the
lists that its trace enters stand in this order among its own. Which ones they are is told by the
same evaluation of the numbered expression, where no two nodes are the same: the place of each list
entered comes after that of the one before. -/
theorem nodes_evaluated_in_order (level : Int) {e : Expr} (clean : e.NullFree)
    (loopless : bytes "while" ∉ e.heads) (m : Machine) :
    (∀ tracing, started (deeds tracing level e m) <+ e.nodes ∧
      ((started (deeds tracing level e.numbered m)).map Expr.loc).Pairwise (· < ·)) ∧
    ∃ events copied : List Event,
      (evalTop true level e m).2.log = events.reverse ++ m.log ∧
      (evalTop true level e.numbered m).2.log = copied.reverse ++ m.log ∧
      entered events = (started (deeds true level e m)).filter (·.kind == .list) ∧
      entered events <+ e.nodes.filter (·.kind == .list) ∧
      ((entered copied).map Expr.loc).Pairwise (· < ·) ∧
      List.Forall₂ (fun copy node => e.nodes[copy.loc.toNat]? = some node) (entered copied)
        (entered events) := by
  have ordered (tracing : Bool) : started (deeds tracing level e m) <+ e.nodes :=
    started_deedsWithin_sublist tracing _ level loopless m
  have numbered (tracing : Bool) :
      started (deeds tracing level e.numbered m) <+ e.numbered.nodes :=
    started_deedsWithin_sublist tracing _ level (e.heads_numbered ▸ loopless) m
  have increasing {nodes : List Expr} (among : nodes <+ e.numbered.nodes) :
      (nodes.map Expr.loc).Pairwise (· < ·) :=
    (Expr.pairwise_loc_numbered clean).sublist (among.map Expr.loc)
  refine ⟨fun tracing => ⟨ordered tracing, increasing (numbered tracing)⟩, ?_⟩
  obtain ⟨copied, events, loggedCopy, logged, same⟩ := enterAlike_numbered level clean m
  have copied_among : entered copied <+ e.numbered.nodes := by
    rw [entered_eq_started loggedCopy]
    exact List.filter_sublist.trans (numbered true)
  refine ⟨events, copied, logged, loggedCopy, entered_eq_started logged, ?_,
    increasing copied_among, ?_⟩
  · rw [entered_eq_started logged]
    exact (ordered true).filter _
  · have present : ∀ copy ∈ entered copied, copy ∈ e.numbered.nodes := copied_among.subset
    refine ((List.forall₂_and_left _ _).2 ⟨present, same⟩).imp ?_
    rintro copy _ ⟨member, rfl⟩
    exact Expr.getElem?_nodes_of_mem_numbered clean member

/-- `(if (= "a" "b") (noFill) (noFill))`, with both branches located at the same place: it is the
second one that is entered. -/
theorem nodes_evaluated_in_order_second_branch :
    let branch := Expr.list 12 [.symbol 13 (bytes "noFill")]
    let condition := Expr.list 4 [.symbol 5 (bytes "="), .string 7 (bytes "a"),
      .string 9 (bytes "b")]
    let e := Expr.list 0 [.symbol 1 (bytes "if"), condition, branch, branch]
    let m : Machine := { scopes := [.empty] }
    e.NullFree ∧ bytes "while" ∉ e.heads ∧
      started (deeds true 0 e m) <+ e.nodes ∧
      ∃ copied : List Event, (evalTop true 0 e.numbered m).2.log = copied.reverse ++ m.log ∧
        (entered copied).map Expr.loc = [0, 2, 8] ∧
        List.Forall₂ (fun copy node => e.nodes[copy.loc.toNat]? = some node) (entered copied)
          [e, condition, branch] := by
  intro branch condition e m
  have clean : e.NullFree := by decide
  have loopless : bytes "while" ∉ e.heads := by decide
  obtain ⟨ordered, events, copied, logged, loggedCopy, -, -, -, same⟩ :=
    nodes_evaluated_in_order 0 clean loopless m
  have happened : events = (evalTop true 0 e m).2.log.reverse := by simp [logged, m]
  have copies : copied = (evalTop true 0 e.numbered m).2.log.reverse := by simp [loggedCopy, m]
  have lists : entered events = [e, condition, branch] := by rw [happened]; rfl
  have places : (entered copied).map Expr.loc = [0, 2, 8] := by rw [copies]; rfl
  exact ⟨clean, loopless, (ordered true).1, copied, loggedCopy, places, lists ▸ same⟩

end Sketch
