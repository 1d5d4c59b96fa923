import Mathlib.Data.List.Forall2
import Sketch.Proofs.Expr.Nodes
import Sketch.Proofs.Source.Acceptance

/-! Where the expressions of a source stand. Tokens follow one another without overlapping, so the
expressions outside every list take up separate spans, and each node stands in that of its own. -/
namespace Sketch

/-- The offset behind the last byte. -/
def Token.stop (t : Token) : Nat := t.loc + t.lexeme.bytes.length

/-- The offsets from `start` up to `stop`, without it. -/
structure Span where
  start : Nat
  stop : Nat
  deriving DecidableEq

def Span.Holds (s : Span) (loc : Int) : Prop := s.start ≤ loc ∧ loc < s.stop

/-- An expression starts where the span does, and all its nodes are located inside. -/
structure Span.Covers (s : Span) (e : Expr) : Prop where
  start : s.start = e.loc
  holds : ∀ node ∈ e.nodes, s.Holds node.loc

/-- The spans of the expressions outside every list that the tokens spell. While `depth` lists are
open, the outermost of them since `start`, the end of that one is awaited. -/
def spansFrom (start : Nat) : (depth : Nat) → List Token → List Span
  | _, [] => []
  | 0, ⟨loc, .opening⟩ :: rest => spansFrom loc 1 rest
  | 0, t :: rest => ⟨t.loc, t.stop⟩ :: spansFrom start 0 rest
  | depth + 1, ⟨_, .opening⟩ :: rest => spansFrom start (depth + 2) rest
  | 1, ⟨loc, .closing⟩ :: rest => ⟨start, loc + 1⟩ :: spansFrom start 0 rest
  | depth + 2, ⟨_, .closing⟩ :: rest => spansFrom start (depth + 1) rest
  | depth + 1, _ :: rest => spansFrom start (depth + 1) rest

def spans (source : Bytes) : List Span := spansFrom 0 0 (tokens source)

/-- Every token takes up something, and each one starts behind those before it. -/
structure Ordered (tokens : List Token) : Prop where
  nonempty : ∀ t ∈ tokens, t.loc < t.stop
  apart : tokens.Pairwise fun a b => a.stop ≤ b.loc

namespace Place

theorem token?_bounds {p q : Place} {t : Token} (found : p.token? = some (t, q)) :
    p.pos ≤ t.loc ∧ t.loc < t.stop ∧ t.stop = q.pos := by
  obtain ⟨c, r, next, rfl, rfl⟩ := token?_eq_some found
  have positive := length_lexemeAt_pos c r.rest
  refine ⟨Nat.le_add_right _ _, ?_, rfl⟩
  simp only [Token.stop]
  omega

theorem pos_le_loc_of_mem_tokens {p : Place} {t : Token} (member : t ∈ p.tokens) :
    p.pos ≤ t.loc := by
  induction p using tokens.induct with
  | case1 p ended => simp [tokens_of_none ended] at member
  | case2 p first q found _ ih =>
    have bounds := token?_bounds found
    rw [tokens_of_some found, List.mem_cons] at member
    rcases member with rfl | member
    · exact bounds.1
    · have := ih member
      omega

theorem ordered_tokens (p : Place) : Ordered p.tokens := by
  induction p using tokens.induct with
  | case1 p ended =>
    rw [tokens_of_none ended]
    exact ⟨by simp, .nil⟩
  | case2 p first q found _ ih =>
    have bounds := token?_bounds found
    rw [tokens_of_some found]
    refine ⟨List.forall_mem_cons.2 ⟨bounds.2.1, ih.nonempty⟩, .cons (fun t member => ?_) ih.apart⟩
    have := pos_le_loc_of_mem_tokens member
    omega

end Place

theorem ordered_tokens (source : Bytes) : Ordered (tokens source) := Place.ordered_tokens _

theorem Ordered.of_cons {t : Token} {rest : List Token} (ordered : Ordered (t :: rest)) :
    t.loc < t.stop ∧ (∀ later ∈ rest, t.stop ≤ later.loc) ∧ Ordered rest := by
  obtain ⟨filled, others⟩ := List.forall_mem_cons.1 ordered.nonempty
  obtain ⟨behind, apart⟩ := List.pairwise_cons.1 ordered.apart
  exact ⟨filled, behind, others, apart⟩

theorem Ordered.of_append {front back : List Token} (ordered : Ordered (front ++ back)) :
    (∀ t ∈ front, ∀ later ∈ back, t.stop ≤ later.loc) ∧ Ordered back := by
  obtain ⟨-, others⟩ := List.forall_mem_append.1 ordered.nonempty
  obtain ⟨-, apart, behind⟩ := List.pairwise_append.1 ordered.apart
  exact ⟨behind, others, apart⟩

/-- A span stops with a token, and starts with one unless it is open already. -/
theorem bounds_of_mem_spansFrom {start depth : Nat} {front : List Token} {span : Span}
    (member : span ∈ spansFrom start depth front) :
    span.stop ∈ front.map Token.stop ∧
      (span.start ∈ front.map Token.loc ∨ 0 < depth ∧ span.start = start) := by
  have closes (loc : Nat) : Token.stop ⟨loc, .closing⟩ = loc + 1 := rfl
  fun_induction spansFrom start depth front with
  | case1 => cases member
  | case2 | case3 | case4 | case5 | case6 | case7 => grind

theorem pairwise_spansFrom {front : List Token} (apart : front.Pairwise fun a b => a.stop ≤ b.loc)
    (start depth : Nat) : (spansFrom start depth front).Pairwise fun a b => a.stop ≤ b.start := by
  have behind {start stop : Nat} {rest : List Token} (before : ∀ t ∈ rest, stop ≤ t.loc) :
      ∀ span ∈ spansFrom start 0 rest, stop ≤ span.start := by
    intro span later
    obtain ⟨-, started | opened⟩ := bounds_of_mem_spansFrom later
    · obtain ⟨t, found, same⟩ := List.mem_map.1 started
      exact same ▸ before t found
    · omega
  fun_induction spansFrom start depth front with
  | case1 => exact .nil
  | case2 _ _ _ ih | case4 _ _ _ _ ih | case6 _ _ _ _ ih | case7 _ _ _ _ _ _ _ ih =>
    exact ih apart.tail
  | case3 _ _ _ _ ih | case5 _ _ _ ih =>
    -- a span is finished, and the next one starts with a later token
    obtain ⟨before, apart⟩ := List.pairwise_cons.1 apart
    exact .cons (behind before) (ih apart)

/-- What a list holds is passed over. -/
theorem spansFrom_inside {inner : List Token} {elements : List Expr}
    (spelled : Spells inner elements) (start depth : Nat) (rest : List Token) :
    spansFrom start (depth + 1) (inner ++ rest) = spansFrom start (depth + 1) rest := by
  induction spelled generalizing depth rest with
  | nil => rfl
  | string _ ih | number _ _ ih | symbol _ ih => exact ih depth rest
  | list _ _ inside later =>
    simp only [List.cons_append, List.append_assoc, spansFrom]
    rw [inside (depth + 1), spansFrom, later]

/-- Each node is located at a token. -/
theorem Spells.loc_eq {front : List Token} {exprs : List Expr} (spelled : Spells front exprs)
    {node : Expr} (member : node ∈ Expr.insideAll exprs) : ∃ t ∈ front, node.loc = t.loc := by
  induction spelled with
  | nil => cases member
  | string _ ih | number _ _ ih | symbol _ ih =>
    rcases List.mem_cons.1 member with rfl | later
    · exact ⟨_, List.mem_cons_self, rfl⟩
    · obtain ⟨t, found, same⟩ := ih later
      exact ⟨t, List.mem_cons_of_mem _ found, same⟩
  | list _ _ inside later =>
    simp only [Expr.insideAll, Expr.inside, List.mem_cons, List.mem_append] at member
    rcases member with rfl | inner | rest
    · exact ⟨_, List.mem_cons_self, rfl⟩
    · obtain ⟨t, found, same⟩ := inside inner
      exact ⟨t, by simp [found], same⟩
    · obtain ⟨t, found, same⟩ := later rest
      exact ⟨t, by simp [found], same⟩

/-- The spans are those of the expressions spelled, one by one. -/
theorem Spells.covered {front : List Token} {exprs : List Expr} (spelled : Spells front exprs)
    (ordered : Ordered front) (start : Nat) :
    List.Forall₂ (fun e span => span.Covers e) exprs (spansFrom start 0 front) := by
  induction spelled generalizing start with
  | nil => exact .nil
  | string _ ih | number _ _ ih | symbol _ ih =>
    obtain ⟨filled, -, rest⟩ := ordered.of_cons
    refine .cons ⟨rfl, fun node member => ?_⟩ (ih rest start)
    obtain rfl : node = _ := List.mem_singleton.1 member
    exact ⟨Int.le_refl _, Int.ofNat_lt.2 filled⟩
  | @list elements rest exprs loc stop inner inside later _ ih =>
    have passed : spansFrom start 0 (⟨loc, .opening⟩ :: (inner ++ ⟨stop, .closing⟩ :: rest)) =
        ⟨loc, stop + 1⟩ :: spansFrom loc 0 rest := by
      rw [spansFrom, spansFrom_inside inside, spansFrom]
    obtain ⟨-, opened, tail⟩ := ordered.of_cons
    obtain ⟨closed, tail⟩ := tail.of_append
    obtain ⟨-, -, tail⟩ := tail.of_cons
    rw [passed]
    refine .cons ⟨rfl, fun node member => ?_⟩ (ih tail loc)
    have nonempty : loc + 1 ≤ stop := opened ⟨stop, .closing⟩ (by simp)
    rcases List.mem_cons.1 member with rfl | within
    · exact ⟨Int.le_refl _, by simp only [Expr.loc]; omega⟩
    · obtain ⟨t, found, same⟩ := inside.loc_eq within
      have lower : loc + 1 ≤ t.loc := opened t (by simp [found])
      have upper : t.stop ≤ stop := closed t found ⟨stop, .closing⟩ List.mem_cons_self
      have filled : t.loc < t.stop := ordered.nonempty t (by simp [found])
      simp only [Span.Holds, same]
      omega

-- (+ xy) xy
example : spansFrom 0 0 [⟨0, .opening⟩, ⟨1, .symbol (bytes "+")⟩, ⟨3, .symbol (bytes "xy")⟩,
    ⟨5, .closing⟩, ⟨7, .symbol (bytes "xy")⟩] = [⟨0, 6⟩, ⟨7, 9⟩] := by decide

theorem Place.loc_lt_stop_of_token? {p q : Place} {t : Token} (found : p.token? = some (t, q)) :
    t.loc < p.stop := by
  obtain ⟨-, filled, behind⟩ := token?_bounds found
  rw [← stop_of_token? found, stop]
  omega

theorem Place.stop_le_of_mem_tokens {p : Place} {t : Token} (member : t ∈ p.tokens) :
    t.stop ≤ p.stop := by
  induction p using tokens.induct with
  | case1 p ended => simp [tokens_of_none ended] at member
  | case2 p first q found _ ih =>
    rw [← stop_of_token? found]
    rw [tokens_of_some found, List.mem_cons] at member
    rcases member with rfl | member
    · rw [(token?_bounds found).2.2]
      exact Nat.le_add_right _ _
    · exact ih member

theorem stop_le_length_of_mem_spans {source : Bytes} {span : Span}
    (member : span ∈ spans source) : span.stop ≤ source.length := by
  obtain ⟨t, found, same⟩ := List.mem_map.1 (bounds_of_mem_spansFrom member).1
  have inside := Place.stop_le_of_mem_tokens found
  rw [← same]
  simpa [Place.stop, Place.start] using inside

theorem pairwise_spans (source : Bytes) :
    (spans source).Pairwise fun a b => a.stop ≤ b.start :=
  pairwise_spansFrom (ordered_tokens source).apart 0 0

theorem spans_cover_program {source : Bytes} {program : List Expr}
    (accepted : (read source).program = .ok program) :
    List.Forall₂ (fun e span => span.Covers e) program (spans source) := by
  obtain ⟨clean, rfl⟩ := program_eq_ok.1 accepted
  exact ((readsForms_read source).spells clean).covered (ordered_tokens source) 0

/-- Errors are reported at tokens, or where a list was opened that is never closed. -/
theorem Reads.error_loc_lt {limit level : Nat} {aim : Aim} {p q : Place} {y : Yield}
    (reads : Reads limit aim level p y q)
    (opened : ∀ loc items, aim = .items loc items → loc < p.stop) :
    ∀ e ∈ y.errors, e.loc < p.stop := by
  induction reads with
  | string | number | symbol | closed => simp
  | openString found | badNumber found _ | strayClose found | tooDeep found _ =>
    simpa using Place.loc_lt_stop_of_token? found
  | ended => simpa using opened _ _ rfl
  | list found _ _ ih =>
    have stop := Place.stop_of_token? found
    rw [← stop]
    refine ih fun loc items same => ?_
    cases same
    rw [stop]
    exact Place.loc_lt_stop_of_token? found
  | item _ _ readsFirst _ first later =>
    have stop := readsFirst.stop
    refine List.forall_mem_append.2 ⟨first nofun, ?_⟩
    rw [← stop]
    refine later fun loc items same => ?_
    cases same
    rw [stop]
    exact opened _ _ rfl

theorem ReadsForms.error_loc_lt {limit : Nat} {p : Place} {forms : List Expr}
    {errors : List ParseError} {visits : List Visit}
    (reads : ReadsForms limit p forms errors visits) : ∀ e ∈ errors, e.loc < p.stop := by
  induction reads with
  | ended => simp
  | form _ readsFirst _ ih =>
    refine List.forall_mem_append.2 ⟨readsFirst.error_loc_lt nofun, ?_⟩
    rw [← readsFirst.stop]
    exact ih

theorem error_loc_lt_length {source : Bytes} {e : ParseError}
    (reported : e ∈ (read source).errors) : e.loc < source.length := by
  have within := (readsForms_read source).error_loc_lt e reported
  simpa [Place.stop, Place.start] using within

end Sketch
