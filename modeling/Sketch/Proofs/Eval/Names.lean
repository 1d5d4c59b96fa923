import Sketch.Proofs.Eval.Lasting
import Sketch.Session

/-! Which names are bound where. Evaluation changes values only: every scope that was there before
holds the same names afterwards, so a session never adds a root binding and never loses one. -/
namespace Sketch

namespace Frame

theorem has_iff_mem_names (f : Frame) (name : Bytes) : f.has name ↔ name ∈ f.names := by
  unfold has find? names
  induction f.entries with
  | nil => simp
  | cons entry rest ih =>
    obtain ⟨key, value⟩ := entry
    rw [lookup_cons_eq_ite]
    by_cases same : name = key
    · simp [same]
    · simp [same, ih]

/-- Setting a name that is bound keeps the names. -/
theorem names_set_of_has {f : Frame} {name : Bytes} (held : f.has name) (value : Expr) :
    (f.set name value).names = f.names := by
  rw [has_iff_mem_names] at held
  obtain ⟨entries, sorted⟩ := f
  simp only [names, set] at held ⊢
  fun_induction insert name value entries with
  | case1 => simp at held
  | case2 key old rest less =>
    -- a name below the first one is not bound at all
    have above := (List.pairwise_cons.1 sorted).1
    simp only [List.map_cons, List.mem_cons, List.mem_map] at held
    rcases held with rfl | ⟨entry, member, rfl⟩
    · exact absurd less (List.lt_irrefl _)
    · exact absurd (List.lt_trans less (above entry member)) (List.lt_irrefl _)
  | case3 old rest => simp
  | case4 key old rest notLess differs ih =>
    have later : name ∈ rest.map Prod.fst := by simpa [differs] using held
    rw [List.map_cons, List.map_cons, ih (List.pairwise_cons.1 sorted).2 later]

end Frame

namespace Scopes

theorem owner?_cons (f : Frame) (rest : Scopes) (name : Bytes) :
    owner? (f :: rest) name = if f.has name then some 0 else (owner? rest name).map (· + 1) :=
  List.findIdx?_cons

@[simp] theorem setAt_zero (f : Frame) (rest : Scopes) (name : Bytes) (value : Expr) :
    setAt (f :: rest) 0 name value = f.set name value :: rest :=
  List.modify_zero_cons ..

@[simp] theorem setAt_succ (f : Frame) (rest : Scopes) (index : Nat) (name : Bytes)
    (value : Expr) : setAt (f :: rest) (index + 1) name value = f :: setAt rest index name value :=
  List.modify_succ_cons ..

/-- The owner of a name depends on names only. -/
theorem owner?_congr {scopes scopes' : Scopes}
    (same : scopes'.map Frame.names = scopes.map Frame.names) (name : Bytes) :
    owner? scopes' name = owner? scopes name := by
  have byNames (scopes : Scopes) :
      owner? scopes name = (scopes.map Frame.names).findIdx? (fun names => name ∈ names) := by
    rw [List.findIdx?_map, owner?]
    congr 1
    funext f
    simp [← Frame.has_iff_mem_names]
  rw [byNames, byNames, same]

theorem names_setAt_owner {scopes : Scopes} {name : Bytes} {index : Nat}
    (chosen : owner? scopes name = some index) (value : Expr) :
    (setAt scopes index name value).map Frame.names = scopes.map Frame.names := by
  induction scopes generalizing index with
  | nil => simp [owner?] at chosen
  | cons f rest ih =>
    rw [owner?_cons] at chosen
    split at chosen
    · next held =>
      cases chosen
      rw [setAt_zero, List.map_cons, Frame.names_set_of_has held, List.map_cons]
    · obtain ⟨outer, found, rfl⟩ := Option.map_eq_some_iff.1 chosen
      rw [setAt_succ, List.map_cons, List.map_cons, ih found]

end Scopes

/-- The same scopes, with the same names in each. -/
def SameNames (a b : Machine) : Prop := b.scopes.map Frame.names = a.scopes.map Frame.names

theorem lasting_sameNames : Lasting SameNames where
  refl _ := rfl
  trans first later := later.trans first
  exitScope same := by
    simpa [SameNames, Machine.exitScope, Scopes.exit] using congrArg List.tail same
  assign value chosen same :=
    Scopes.names_setAt_owner ((Scopes.owner?_congr same _).trans chosen) value
  setColour _ _ _ := rfl
  rect _ _ _ _ m := by rw [after_draw]; rfl
  line _ _ _ _ m := by rw [after_draw]; rfl
  enter _ _ _ := rfl
  leave _ _ _ := rfl

theorem sameNames_execute (tracing : Bool) (source : Bytes) (m : Machine) :
    SameNames m (execute tracing source m).2 := by
  unfold execute
  cases (read source).program with
  | error errors => rfl
  | ok program => exact lasting_sameNames.run tracing program { m with log := [] }

/-- One step of a session: a source run as a whole, or one expression evaluated. -/
inductive Step where
  | run (tracing : Bool) (source : Bytes)
  | eval (tracing : Bool) (level : Int) (expr : Expr)

def Step.perform : Step → Machine → Machine
  | .run tracing source, m => (execute tracing source m).2
  | .eval tracing level expr, m => (evalTop tracing level expr m).2

/-- The machine after all steps of a session, failed ones included. -/
def session (steps : List Step) (m : Machine) : Machine :=
  steps.foldl (fun m step => step.perform m) m

theorem sameNames_perform (step : Step) (m : Machine) : SameNames m (step.perform m) := by
  cases step with
  | run tracing source => exact sameNames_execute tracing source m
  | eval tracing level expr => exact lasting_sameNames.evalTop tracing level expr m

theorem sameNames_session (steps : List Step) (m : Machine) : SameNames m (session steps m) := by
  induction steps generalizing m with
  | nil => rfl
  | cons step rest ih => exact lasting_sameNames.trans (sameNames_perform step m) (ih _)

/-- No evaluation creates or removes a binding in a scope of its caller, and the root scope of a
session holds the names it was given at the start. -/
theorem names_kept (m : Machine) :
    (∀ tracing level expr,
      (evalTop tracing level expr m).2.scopes.map Frame.names = m.scopes.map Frame.names) ∧
    (∀ steps, (session steps m).scopes.map Frame.names = m.scopes.map Frame.names) ∧
    ∀ width height steps, (session steps (.start width height)).scopes.map Frame.names =
      [[bytes "height", bytes "width"]] := by
  refine ⟨fun tracing level expr => lasting_sameNames.evalTop tracing level expr m,
    fun steps => sameNames_session steps m, fun width height steps => ?_⟩
  have start : (Machine.start width height).scopes.map Frame.names =
      [[bytes "height", bytes "width"]] := by
    have less : bytes "height" < bytes "width" := by decide
    simp [Machine.start, Frame.names, Frame.set, Frame.insert, Frame.empty, less]
  rw [← start]
  exact sameNames_session steps _

end Sketch
