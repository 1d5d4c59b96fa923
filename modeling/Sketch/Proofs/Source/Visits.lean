import Sketch.Proofs.Console.Location
import Sketch.Proofs.Source.Cut

/-! What is noted while a source is read. Each expression is noted where it begins, before anything
inside it, so without errors the notes are the nodes of the program, each list before its elements, and
the trace of the reader has one line for each of them. -/
namespace Sketch

namespace Expr

mutual
/-- Everything inside an expression that has `level` lists around it, each node with the number of
lists around that. -/
def insideAt (level : Nat) : Expr → List (Nat × Expr)
  | .list _ elements => insideAllAt (level + 1) elements
  | .nothing | .number .. | .string .. | .boolean .. | .symbol .. => []

def insideAllAt (level : Nat) : List Expr → List (Nat × Expr)
  | [] => []
  | element :: rest => (level, element) :: (insideAt level element ++ insideAllAt level rest)
end

def nodesAt (level : Nat) (e : Expr) : List (Nat × Expr) := (level, e) :: e.insideAt level

mutual
theorem map_snd_insideAt (level : Nat) : ∀ e : Expr, (e.insideAt level).map Prod.snd = e.inside
  | .nothing | .number .. | .string .. | .boolean .. | .symbol .. => rfl
  | .list _ elements => map_snd_insideAllAt (level + 1) elements

/-- Apart from the levels these are the nodes, in their order. -/
theorem map_snd_insideAllAt (level : Nat) :
    ∀ es : List Expr, (insideAllAt level es).map Prod.snd = insideAll es
  | [] => rfl
  | element :: rest => by
    rw [insideAllAt, insideAll, List.map_cons, List.map_append, map_snd_insideAt level element,
      map_snd_insideAllAt level rest]
end

/-- The line that the trace of the reader has for a node with `level` lists around it. -/
def line (level : Nat) (node : Expr) : Bytes :=
  bytes "[parse] " ++ paddedDecimal 2 level ++ blanks (2 * (level + 1)) ++ bytes "> "
    ++ node.kind.name ++ bytes " @" ++ signedDecimal node.loc ++ [newline]

end Expr

/-- The visit is the one to this node. -/
structure Visit.Notes (v : Visit) (node : Nat × Expr) : Prop where
  level : v.level = node.1
  kind : v.kind = node.2.kind
  loc : (v.loc : Int) = node.2.loc

theorem Visit.Notes.line_eq {v : Visit} {node : Nat × Expr} (notes : v.Notes node) :
    v.line = node.2.line node.1 := by
  rw [Visit.line, Expr.line, notes.level, notes.kind, ← notes.loc]
  rfl

/-- The visits are those to the nodes that are read for an aim. -/
def Aim.Noted (level : Nat) (visits : List Visit) : Aim → Expr → Prop
  | .expr, e => List.Forall₂ Visit.Notes visits (e.nodesAt level)
  | .items loc before, e => ∃ newest elements, before = some newest ∧
      e = .list loc (newest.reverse ++ elements) ∧
      List.Forall₂ Visit.Notes visits (Expr.insideAllAt (level + 1) elements)

theorem Reads.noted {limit level : Nat} {aim : Aim} {p q : Place} {y : Yield} {e : Expr}
    (reads : Reads limit aim level p y q) (whole : y.result = some e) :
    aim.Noted level y.visits e := by
  induction reads generalizing e with
  | string | number | symbol =>
    cases whole
    exact .cons ⟨rfl, rfl, rfl⟩ .nil
  | openString | badNumber | strayClose | tooDeep | ended => contradiction
  | list _ _ _ ih =>
    obtain ⟨newest, elements, empty, rfl, inside⟩ := ih whole
    cases empty
    exact .cons ⟨rfl, rfl, rfl⟩ inside
  | closed =>
    obtain ⟨newest, rfl, rfl⟩ := Option.map_eq_some_iff.1 whole
    exact ⟨newest, [], rfl, by simp, .nil⟩
  | item _ _ _ _ first later =>
    obtain ⟨_, elements, added, rfl, rest⟩ := later whole
    obtain ⟨older, element, rfl, rfl, rfl⟩ := addItem_eq_some added
    exact ⟨older, element :: elements, rfl, by simp, List.rel_append (first rfl) rest⟩

theorem ReadsForms.noted {limit : Nat} {p : Place} {forms : List Expr} {errors : List ParseError}
    {visits : List Visit} (reads : ReadsForms limit p forms errors visits) (clean : errors = []) :
    List.Forall₂ Visit.Notes visits (Expr.insideAllAt 0 forms) := by
  induction reads with
  | ended => exact .nil
  | form _ readsFirst _ ih =>
    obtain ⟨cleanFirst, cleanLater⟩ := List.append_eq_nil_iff.1 clean
    obtain ⟨e, whole⟩ := readsFirst.exists_result cleanFirst
    have first := readsFirst.noted whole
    simp only at whole
    rw [whole]
    exact List.rel_append first (ih cleanLater)

/-- The productions of the grammar are the kinds of what is read. -/
theorem Reads.kind_mem {limit level : Nat} {p q : Place} {y : Yield} {e : Expr}
    (reads : Reads limit .expr level p y q) (whole : y.result = some e) :
    e.kind ∈ [.list, .string, .number, .symbol] := by
  cases reads with
  | string | number | symbol =>
    cases whole
    simp [Expr.kind]
  | openString | badNumber | strayClose | tooDeep => contradiction
  | list _ _ items =>
    obtain ⟨_, -, _, _, _, _, -, -, -, rfl⟩ := items.spelled whole
    simp [Expr.kind]

theorem flatMap_line_of_notes {visits : List Visit} {nodes : List (Nat × Expr)}
    (noted : List.Forall₂ Visit.Notes visits nodes) :
    visits.flatMap Visit.line = nodes.flatMap fun (level, node) => node.line level := by
  induction noted with
  | nil => rfl
  | cons notes _ ih => rw [List.flatMap_cons, List.flatMap_cons, ih, notes.line_eq]

/-- Tracing changes nothing of what is read, and puts the trace of the reader before all else that is
shown. The trace of a program has one line for each node, lists before their elements, and a last line
that counts the expressions outside every list. -/
theorem trace_lists_nodes_in_order (source : Bytes) :
    (∀ (tracing : Bool) (m : Machine),
      (execute tracing source m).1.reading = read source ∧
      (execute tracing source m).1.report tracing source =
        (if tracing then (read source).trace else []) ++
          (execute tracing source m).1.report false source) ∧
    ∀ program, (read source).program = .ok program →
      (read source).trace =
        ((Expr.insideAllAt 0 program).flatMap fun (level, node) => node.line level) ++
          bytes "[parse] " ++ decimal program.length ++ bytes " expression(s), 0 error(s)\n" ∧
      (Expr.insideAllAt 0 program).map Prod.snd = Expr.insideAll program ∧
      ∀ node ∈ Expr.insideAll program, node.kind ∈ [.list, .string, .number, .symbol] := by
  refine ⟨fun tracing m => ⟨reading_execute tracing source m, ?_⟩, fun program accepted => ?_⟩
  · rw [← reading_execute tracing source m]
    simp [Execution.report]
  · obtain ⟨clean, rfl⟩ := program_eq_ok.1 accepted
    have reads := readsForms_read source
    refine ⟨?_, Expr.map_snd_insideAllAt 0 _,
      reads.nodes_have (fun reads _ whole => reads.kind_mem whole) (.start source)⟩
    have flawless : bytes " expression(s), 0 error(s)\n" =
        bytes " expression(s), " ++ decimal 0 ++ bytes " error(s)\n" := by decide
    rw [Reading.trace, flatMap_line_of_notes (reads.noted clean), clean, flawless]
    simp only [List.append_assoc, List.length_nil]

/-- A list inside a list, and an expression directly behind them. -/
theorem trace_lists_nodes_in_order_nested :
    let source := bytes "(x(\"\"))y"
    let program := [.list 0 [.symbol 1 (bytes "x"), .list 2 [.string 3 []]], .symbol 7 (bytes "y")]
    (read source).program = .ok program ∧ (read source).trace = bytes (
      "[parse] 00  > list @0\n" ++
      "[parse] 01    > symbol @1\n" ++
      "[parse] 01    > list @2\n" ++
      "[parse] 02      > string @3\n" ++
      "[parse] 00  > symbol @7\n" ++
      "[parse] 2 expression(s), 0 error(s)\n") := by
  intro source program
  have accepted : (read source).program = .ok program := by
    subst source program
    with_unfolding_all rfl
  have shown := ((trace_lists_nodes_in_order source).2 program accepted).1
  refine ⟨accepted, shown.trans ?_⟩
  decide +kernel

end Sketch
