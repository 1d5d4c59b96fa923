import Sketch.Proofs.Eval.Effects

/-! Independent expressions commute. Where neither of two expressions assigns a name that the other
mentions, and one of them at most draws, each does the same whether it is evaluated before the other
or after it; so both orders end alike. -/
namespace Sketch

theorem Frame.eq_of_lookup_eq {entries others : List (Bytes × Expr)}
    (sorted : entries.Pairwise fun a b => a.1 < b.1)
    (names : entries.map Prod.fst = others.map Prod.fst)
    (same : ∀ name, entries.lookup name = others.lookup name) : entries = others := by
  induction entries generalizing others with
  | nil => exact (List.map_eq_nil_iff.1 names.symm).symm
  | cons entry rest ih =>
    cases others with
    | nil => cases names
    | cons other rest' =>
      obtain ⟨key, value⟩ := entry
      obtain ⟨key', value'⟩ := other
      obtain ⟨rfl, namesRest⟩ := List.cons.inj names
      obtain ⟨above, sorted⟩ := List.pairwise_cons.1 sorted
      -- the rest holds greater names only
      have absent : key ∉ rest.map Prod.fst := by
        intro member
        obtain ⟨entry, inside, equal⟩ := List.mem_map.1 member
        have less := above entry inside
        rw [equal] at less
        exact List.lt_irrefl _ less
      have unbound {entries : List (Bytes × Expr)} (absent : key ∉ entries.map Prod.fst) :
          entries.lookup key = none := by
        rw [List.lookup_eq_none_iff]
        intro entry member
        simp only [bne_iff_ne, ne_eq]
        rintro rfl
        exact absent (List.mem_map_of_mem member)
      have here : value = value' := by simpa [lookup_cons_eq_ite] using same key
      have later (name : Bytes) : rest.lookup name = rest'.lookup name := by
        by_cases first : name = key
        · rw [first, unbound absent, unbound (namesRest ▸ absent)]
        · simpa [lookup_cons_eq_ite, first] using same name
      rw [here, ih sorted namesRest later]

namespace Scopes

/-- Scopes are their names and what is bound in each of them. -/
theorem eq_of_at?_eq {a b : Scopes} (names : a.map Frame.names = b.map Frame.names)
    (same : ∀ i x, a.at? i x = b.at? i x) : a = b := by
  induction a generalizing b with
  | nil => exact (List.map_eq_nil_iff.1 names.symm).symm
  | cons f rest ih =>
    cases b with
    | nil => cases names
    | cons g rest' =>
      obtain ⟨first, later⟩ := List.cons.inj names
      obtain ⟨entries, sorted⟩ := f
      obtain ⟨entries', sorted'⟩ := g
      obtain rfl : entries = entries' := Frame.eq_of_lookup_eq sorted first fun x => same 0 x
      rw [ih later fun i x => same (i + 1) x]

namespace Framed

variable {names names' : List Bytes} {before now : Scopes}

theorem at?_eq_of_not_mem (framed : Framed names before now) {x : Bytes} (other : x ∉ names)
    (i : Nat) : now.at? i x = before.at? i x := by
  by_contra differs
  exact other (framed.owned i x differs).1

theorem find?_eq_of_not_mem (framed : Framed names before now) {x : Bytes} (other : x ∉ names) :
    now.find? x = before.find? x := by
  have owner := framed.owner?_eq x
  cases chosen : owner? before x with
  | none =>
    have unbound {scopes : Scopes} (unowned : owner? scopes x = none) : find? scopes x = none := by
      have found := owner?_isSome scopes x
      rw [unowned] at found
      simpa using found.symm
    rw [unbound chosen, unbound (owner.trans chosen)]
  | some i =>
    rw [find?_eq_at?_owner chosen, find?_eq_at?_owner (owner.trans chosen),
      framed.at?_eq_of_not_mem other]

/-- Two changes made one after another, in both orders, to different names. If the first change is
seen to be the same behind the second, it is the same wherever it was made. -/
theorem at?_comm {s sp sq spq sqp : Scopes} (p : Framed names s sp) (q : Framed names' s sq)
    (pq : Framed names' sp spq) (qp : Framed names sq sqp) {x : Bytes} (other : x ∉ names')
    (shown : x ∈ names → sp.find? x = sqp.find? x) (i : Nat) : spq.at? i x = sqp.at? i x := by
  rw [pq.at?_eq_of_not_mem other]
  have owner : owner? sq x = owner? s x := q.owner?_eq x
  by_cases changed : x ∈ names ∧ owner? s x = some i
  · obtain ⟨member, chosen⟩ := changed
    rw [← find?_eq_at?_owner ((p.owner?_eq x).trans chosen), shown member,
      find?_eq_at?_owner ((qp.owner?_eq x).trans (owner.trans chosen))]
  · have kept : sp.at? i x = s.at? i x := by
      by_contra differs
      exact changed (p.owned i x differs)
    have kept' : sqp.at? i x = sq.at? i x := by
      by_contra differs
      obtain ⟨member, chosen⟩ := qp.owned i x differs
      exact changed ⟨member, owner.symm.trans chosen⟩
    rw [kept, kept', q.at?_eq_of_not_mem other]

end Framed

end Scopes

section

variable {p q : Expr} {m mp mq mpq mqp : Machine}

theorem scopes_comm (first : Beside p m mq 0 mp mqp) (second : Beside q m mp 0 mq mpq)
    (apart : ∀ x ∈ q.assigned, x ∉ p.symbols) : mpq.scopes = mqp.scopes := by
  have p₁ := first.confined.framed
  have q₁ := second.confined.framed
  have q₂ := second.confined'.framed
  have p₂ := first.confined'.framed
  have names : mpq.scopes.map Frame.names = mqp.scopes.map Frame.names := by
    rw [q₂.names_eq, p₁.names_eq, p₂.names_eq, q₁.names_eq]
  refine Scopes.eq_of_at?_eq names fun i x => ?_
  by_cases assigned : x ∈ q.assigned
  · have other : x ∉ p.assigned := fun member =>
      apart x assigned (p.assigned_subset_symbols member)
    have shown := second.alike.scopes.find?_eq (q.assigned_subset_symbols assigned)
    exact (q₁.at?_comm p₁ p₂ q₂ other (fun _ => shown) i).symm
  · have shown (member : x ∈ p.assigned) :=
      first.alike.scopes.find?_eq (p.assigned_subset_symbols member)
    exact p₁.at?_comm q₁ q₂ p₂ assigned shown i

/-- An expression that does not draw may come before or after one that does. -/
theorem picture_comm (first : Beside p m mq 0 mp mqp) (second : Beside q m mp 0 mq mpq)
    (blind : ¬ p.Draws) :
    mpq.canvas = mqp.canvas ∧ mpq.log.filter Event.marks = mqp.log.filter Event.marks := by
  constructor
  · have untouched : m.canvas = mp.canvas := (first.confined.canvas_eq blind).symm
    rw [← second.canvas untouched, first.confined'.canvas_eq blind]
  · obtain ⟨events, log, log'⟩ := first.alike.events
    obtain ⟨more, logMore, logMore'⟩ := second.alike.events
    obtain ⟨events', again, caused⟩ := first.confined.events
    have same : events = events' := List.append_cancel_right (log.symm.trans again)
    have quiet : events.filter Event.marks = [] := by
      rw [List.filter_eq_nil_iff, same]
      exact fun event member marked => blind (caused event member marked)
    have both : mpq.log = more ++ mp.log := logMore'
    have both' : mqp.log = events ++ mq.log := log'
    rw [both, both', log, logMore]
    simp [quiet]

end

/-- What comes before an expression without assigning anything in it does not disturb it. -/
theorem beside_evalTop_after (tracing : Bool) (p q : Expr) {m : Machine}
    (plain : m.scopes.NoSymbols) (apart : ∀ x ∈ q.assigned, x ∉ p.symbols)
    (single : ¬ (p.Draws ∧ q.Draws)) :
    let mq := (evalTop tracing 0 q m).2
    (evalTop tracing 0 p m).1 = (evalTop tracing 0 p mq).1 ∧
      Beside p m mq 0 (evalTop tracing 0 p m).2 (evalTop tracing 0 p mq).2 := by
  intro mq
  have confined : Confined q m 0 mq := confined_evalTop tracing 0 q plain
  have plain' : mq.scopes.NoSymbols := noSymbols_evalTop tracing 0 q plain
  refine beside_evalTop tracing 0 p plain plain' (fun x member => ?_) fun draws => ?_
  · have other : x ∉ q.assigned := fun assigned => apart x assigned member
    exact (confined.framed.find?_eq_of_not_mem other).symm
  · exact (confined.canvas_eq fun drawsToo => single ⟨draws, drawsToo⟩).symm

/-- Both orders of two independent expressions give the same outcomes and leave the same scopes, the
same colours and the same picture. -/
theorem independent_expressions_commute (tracing : Bool) (p q : Expr) {m : Machine}
    (plain : m.scopes.NoSymbols) (apart : ∀ x ∈ p.assigned, x ∉ q.symbols)
    (apart' : ∀ x ∈ q.assigned, x ∉ p.symbols) (single : ¬ (p.Draws ∧ q.Draws)) :
    let forth := run tracing [p, q] m
    let back := run tracing [q, p] m
    (∃ a b, forth.1 = [a, b] ∧ back.1 = [b, a]) ∧ forth.2.scopes = back.2.scopes ∧
      forth.2.canvas = back.2.canvas ∧
      forth.2.log.filter Event.marks = back.2.log.filter Event.marks := by
  intro forth back
  obtain ⟨outcome, first⟩ := beside_evalTop_after tracing p q plain apart' single
  obtain ⟨outcome', second⟩ :=
    beside_evalTop_after tracing q p plain apart fun both => single ⟨both.2, both.1⟩
  have scopes := scopes_comm first second apart'
  have picture : forth.2.canvas = back.2.canvas ∧
      forth.2.log.filter Event.marks = back.2.log.filter Event.marks := by
    by_cases draws : p.Draws
    · have blind : ¬ q.Draws := fun drawsToo => single ⟨draws, drawsToo⟩
      obtain ⟨canvas, marks⟩ := picture_comm second first blind
      exact ⟨canvas.symm, marks.symm⟩
    · exact picture_comm first second draws
  refine ⟨⟨(evalTop tracing 0 p m).1, (evalTop tracing 0 q m).1, ?_, ?_⟩, scopes, picture⟩
  · rw [outcome']
    rfl
  · rw [outcome]
    rfl

/-- `(set x y)` and `(let ((z y)) (set w z) (fill y))`: both read `y`, and each changes something
else. -/
theorem independent_expressions_commute_shared :
    let name (text : String) (loc : Int) := Expr.symbol loc (bytes text)
    let p := Expr.list 0 [name "set" 1, name "x" 5, name "y" 7]
    let q := Expr.list 10 [name "let" 11, .list 15 [.list 16 [name "z" 17, name "y" 19]],
      .list 23 [name "set" 24, name "w" 28, name "z" 30],
      .list 33 [name "fill" 34, name "y" 39]]
    let old := Expr.boolean noLoc false
    let red := Expr.string noLoc (bytes "red")
    let root := ((Frame.empty.set (bytes "w") old).set (bytes "x") old).set (bytes "y") red
    let m : Machine := { scopes := [root] }
    let forth := run false [p, q] m
    let back := run false [q, p] m
    (m.scopes.NoSymbols ∧ (∀ x ∈ p.assigned, x ∉ q.symbols) ∧ (∀ x ∈ q.assigned, x ∉ p.symbols) ∧
      ¬ (p.Draws ∧ q.Draws)) ∧
    ((∃ a b, forth.1 = [a, b] ∧ back.1 = [b, a]) ∧ forth.2.scopes = back.2.scopes ∧
      forth.2.canvas = back.2.canvas ∧
      forth.2.log.filter Event.marks = back.2.log.filter Event.marks) ∧
    back.2.scopes.find? (bytes "x") = some red ∧ back.2.scopes.find? (bytes "w") = some red ∧
      back.2.canvas.fill = bytes "red" := by
  intro name p q old red root m forth back
  have plain : m.scopes.NoSymbols := by decide
  have apart : ∀ x ∈ p.assigned, x ∉ q.symbols := by decide +kernel
  have apart' : ∀ x ∈ q.assigned, x ∉ p.symbols := by decide +kernel
  have single : ¬ (p.Draws ∧ q.Draws) := by decide +kernel
  exact ⟨⟨plain, apart, apart', single⟩,
    independent_expressions_commute false p q plain apart apart' single, rfl, rfl, rfl⟩

end Sketch
