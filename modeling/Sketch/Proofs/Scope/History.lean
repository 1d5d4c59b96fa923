import Mathlib.Data.List.Induction
import Sketch.Proofs.Eval.Visible
import Sketch.Scope.Tree

/-! Scopes and their history. What is asked of a tree of scopes is a list of requests, and what the
tree shows afterwards can be read off that list alone: a name has the value that it was last set to
in the nearest enclosing scope in which it was ever set. -/
namespace Sketch.ScopeTree

/-- What can be asked of a tree, at one of its scopes. -/
inductive Request where
  | enter (scope : Nat)
  | set (scope : Nat) (name : Bytes) (value : Expr)
  | parent (scope : Nat)
  | lookup (scope : Nat) (name : Bytes)
  | has (scope : Nat) (name : Bytes)
  | names (scope : Nat)

inductive Answer where
  | number (number : Option Nat)
  | done
  | value (value : Expr)
  | held (held : Bool)
  | names (names : List Bytes)

namespace Request

def scope : Request → Nat
  | .enter scope | .set scope .. | .parent scope | .lookup scope _ | .has scope _ | .names scope =>
    scope

def enters : Request → Bool
  | .enter _ => true
  | _ => false

/-- Requests that ask for something only. -/
def reads : Request → Bool
  | .enter _ | .set .. => false
  | .parent _ | .lookup .. | .has .. | .names _ => true

end Request

def answer (tree : ScopeTree) : Request → Answer
  | .enter scope => .number (tree.enter scope).1
  | .set .. => .done
  | .parent scope => .number (tree.parent? scope)
  | .lookup scope name => .value (tree.lookup scope name)
  | .has scope name => .held (tree.has scope name)
  | .names scope => .names (tree.names scope)

def perform (tree : ScopeTree) : Request → ScopeTree
  | .enter scope => (tree.enter scope).2
  | .set scope name value => tree.set scope name value
  | .parent _ | .lookup .. | .has .. | .names _ => tree

/-- The answers to requests made one after another. -/
def answers (tree : ScopeTree) : List Request → List Answer
  | [] => []
  | request :: rest => tree.answer request :: (tree.perform request).answers rest

/-- The tree that a history grows from the root. -/
def grown (history : List Request) : ScopeTree := history.foldl perform root

theorem grown_snoc (history : List Request) (request : Request) :
    grown (history ++ [request]) = (grown history).perform request := by
  simp [grown]

theorem answers_append (tree : ScopeTree) (requests more : List Request) :
    tree.answers (requests ++ more) =
      tree.answers requests ++ (requests.foldl perform tree).answers more := by
  induction requests generalizing tree with
  | nil => rfl
  | cons request rest ih =>
    rw [List.cons_append, answers, answers, ih, List.foldl_cons, List.cons_append]

theorem length_answers (tree : ScopeTree) (requests : List Request) :
    (tree.answers requests).length = requests.length := by
  induction requests generalizing tree with
  | nil => rfl
  | cons request rest ih => rw [answers, List.length_cons, List.length_cons, ih]

theorem perform_of_reads {request : Request} (reads : request.reads) (tree : ScopeTree) :
    tree.perform request = tree := by
  cases request with
  | enter | set => cases reads
  | parent | lookup | has | names => rfl

/-- How many scopes there are after a history, the root included. -/
def size (history : List Request) : Nat := history.countP Request.enters + 1

/-- Every request is made at a scope that is there by then. -/
def Valid (history : List Request) : Prop :=
  ∀ i, (made : i < history.length) → history[i].scope < size (history.take i)

instance (history : List Request) : Decidable (Valid history) :=
  inferInstanceAs
    (Decidable (∀ i, (made : i < history.length) → history[i].scope < size (history.take i)))

/-- A scope was entered from another. Its number is that of the scopes there were before. -/
def EnteredFrom (history : List Request) (scope parent : Nat) : Prop :=
  ∃ before later, history = before ++ .enter parent :: later ∧ scope = size before

def EverSet (history : List Request) (scope : Nat) (name : Bytes) : Prop :=
  ∃ value, .set scope name value ∈ history

/-- What a name was set to in a scope most recently. -/
def LastSet (history : List Request) (scope : Nat) (name : Bytes) (value : Expr) : Prop :=
  ∃ before later, history = before ++ .set scope name value :: later ∧
    ∀ other, .set scope name other ∉ later

/-- The first scope, from one of them outwards, in which a name was ever set. -/
inductive Nearest (history : List Request) (name : Bytes) : Nat → Nat → Prop where
  | here {scope : Nat} : EverSet history scope name → Nearest history name scope scope
  | outer {scope parent owner : Nat} : ¬ EverSet history scope name →
    EnteredFrom history scope parent → Nearest history name parent owner →
    Nearest history name scope owner

/-- A scope itself, or one that it was entered from in one or more steps. -/
inductive Encloses (history : List Request) : Nat → Nat → Prop where
  | self {scope : Nat} : Encloses history scope scope
  | outer {scope parent outer : Nat} : EnteredFrom history scope parent →
    Encloses history outer parent → Encloses history outer scope

section Snoc

variable {history before later : List Request} {request other : Request}

theorem snoc_eq_append_cons_iff : history ++ [request] = before ++ other :: later ↔
    (before = history ∧ other = request ∧ later = []) ∨
      ∃ more, later = more ++ [request] ∧ history = before ++ other :: more := by
  constructor
  · intro split
    rcases List.eq_nil_or_concat later with rfl | ⟨more, last, rfl⟩
    · obtain ⟨rfl, single⟩ := List.append_inj' split rfl
      exact .inl ⟨rfl, (List.cons.inj single).1.symm, rfl⟩
    · have atEnd : history ++ [request] = (before ++ other :: more) ++ [last] := by
        simpa using split
      obtain ⟨rfl, single⟩ := List.append_inj' atEnd rfl
      exact .inr ⟨more, by simp [(List.cons.inj single).1], rfl⟩
  · rintro (⟨rfl, rfl, rfl⟩ | ⟨more, rfl, rfl⟩) <;> simp

theorem size_snoc : size (history ++ [request]) =
    size history + if request.enters then 1 else 0 := by
  simp only [size, List.countP_append, List.countP_singleton]
  omega

theorem valid_snoc (valid : Valid (history ++ [request])) :
    Valid history ∧ request.scope < size history := by
  constructor
  · intro i made
    have there := valid i (by simp; omega)
    rwa [List.getElem_append_left made, List.take_append_of_le_length (Nat.le_of_lt made)] at there
  · simpa using valid history.length (by simp)

theorem enteredFrom_snoc {scope parent : Nat} :
    EnteredFrom (history ++ [request]) scope parent ↔
      EnteredFrom history scope parent ∨ (request = .enter parent ∧ scope = size history) := by
  simp only [EnteredFrom, snoc_eq_append_cons_iff]
  constructor
  · rintro ⟨before, later, ⟨rfl, rfl, rfl⟩ | ⟨more, rfl, split⟩, number⟩
    · exact .inr ⟨rfl, number⟩
    · exact .inl ⟨before, more, split, number⟩
  · rintro (⟨before, more, split, number⟩ | ⟨rfl, number⟩)
    · exact ⟨before, _, .inr ⟨more, rfl, split⟩, number⟩
    · exact ⟨history, [], .inl ⟨rfl, rfl, rfl⟩, number⟩

theorem lastSet_snoc {scope : Nat} {name : Bytes} {value : Expr} :
    LastSet (history ++ [request]) scope name value ↔ request = .set scope name value ∨
      LastSet history scope name value ∧ ∀ other, request ≠ .set scope name other := by
  simp only [LastSet, snoc_eq_append_cons_iff]
  constructor
  · rintro ⟨before, later, ⟨rfl, rfl, rfl⟩ | ⟨more, rfl, split⟩, last⟩
    · exact .inl rfl
    · refine .inr ⟨⟨before, more, split, fun other member => ?_⟩, fun other same => ?_⟩
      · exact last other (List.mem_append_left _ member)
      · exact last other (by simp [same])
  · rintro (rfl | ⟨⟨before, more, split, last⟩, differs⟩)
    · exact ⟨history, [], .inl ⟨rfl, rfl, rfl⟩, by simp⟩
    · refine ⟨before, _, .inr ⟨more, rfl, split⟩, fun other member => ?_⟩
      rcases List.mem_append.1 member with inside | atEnd
      · exact last other inside
      · exact differs other (List.mem_singleton.1 atEnd).symm

end Snoc

theorem everSet_iff {history : List Request} {scope : Nat} {name : Bytes} :
    EverSet history scope name ↔ ∃ value, LastSet history scope name value := by
  constructor
  · rintro ⟨value, member⟩
    induction history generalizing value with
    | nil => cases member
    | cons request rest ih =>
      -- a later set, if there is one, is more recent
      by_cases again : EverSet rest scope name
      · obtain ⟨newer, present⟩ := again
        obtain ⟨last, before, later, rfl, none⟩ := ih newer present
        exact ⟨last, request :: before, later, rfl, none⟩
      · rcases List.mem_cons.1 member with rfl | present
        · exact ⟨value, [], rest, rfl, fun other present => again ⟨other, present⟩⟩
        · exact absurd ⟨value, present⟩ again
  · rintro ⟨value, before, later, rfl, -⟩
    exact ⟨value, by simp⟩

/-- The binding of a name in one scope itself. -/
def local? (tree : ScopeTree) (scope : Nat) (name : Bytes) : Option Expr :=
  tree.scopes[scope]?.bind (·.frame.find? name)

section Steps

variable (tree : ScopeTree)

theorem local?_enter (scope other : Nat) (name : Bytes) :
    (tree.enter scope).2.local? other name = tree.local? other name := by
  simp only [local?, enter]
  rcases Nat.lt_trichotomy other tree.scopes.length with old | new | beyond
  · rw [List.getElem?_append_left old]
  · simp [new]
  · rw [List.getElem?_eq_none (by simp; omega), List.getElem?_eq_none (by omega)]

theorem parent?_enter (scope other : Nat) :
    (tree.enter scope).2.parent? other =
      if other = tree.scopes.length then some scope else tree.parent? other := by
  simp only [parent?, enter]
  rcases Nat.lt_trichotomy other tree.scopes.length with old | new | beyond
  · rw [List.getElem?_append_left old, if_neg (by omega)]
  · simp [new]
  · rw [List.getElem?_eq_none (by simp; omega), List.getElem?_eq_none (by omega),
      if_neg (by omega)]

theorem local?_set {scope : Nat} (there : scope < tree.scopes.length) (name : Bytes) (value : Expr)
    (other : Nat) (x : Bytes) :
    (tree.set scope name value).local? other x =
      if other = scope ∧ x = name then some value else tree.local? other x := by
  simp only [local?, set, List.getElem?_modify]
  by_cases same : scope = other
  · subst same
    simp [there, Frame.find?_set]
  · simp [same, Ne.symm same]

theorem parent?_set (scope : Nat) (name : Bytes) (value : Expr) (other : Nat) :
    (tree.set scope name value).parent? other = tree.parent? other := by
  simp only [parent?, set, List.getElem?_modify]
  by_cases same : scope = other
  · subst same
    cases tree.scopes[scope]? <;> simp
  · simp [same]

variable {tree} {scope : Nat} {name : Bytes}

theorem lookup_of_local? {value : Expr} (bound : tree.local? scope name = some value) :
    tree.lookup scope name = value := by
  obtain ⟨⟨frame, parent⟩, found, held⟩ := Option.bind_eq_some_iff.1 bound
  have first (rest : Scopes) : Scopes.lookup (frame :: rest) name = value := by
    simp only [Scopes.lookup, Scopes.find?_cons, show frame.find? name = some value from held]
    rfl
  rw [lookup, chain, found]
  cases parent with
  | none => exact first _
  | some parent =>
    dsimp only
    split <;> exact first _

theorem lookup_of_parent? {parent : Nat} (unbound : tree.local? scope name = none)
    (entered : tree.parent? scope = some parent) (older : parent < scope) :
    tree.lookup scope name = tree.lookup parent name := by
  obtain ⟨⟨frame, _⟩, found, rfl⟩ := Option.bind_eq_some_iff.1 entered
  have missing : frame.find? name = none := by simpa [local?, found] using unbound
  rw [lookup, chain, found]
  simp only [older, ↓reduceIte, Scopes.lookup, Scopes.find?_cons, missing]
  rfl

theorem lookup_of_root (unbound : tree.local? scope name = none)
    (outermost : tree.parent? scope = none) : tree.lookup scope name = .nothing := by
  rw [lookup, chain]
  cases found : tree.scopes[scope]? with
  | none => rfl
  | some record =>
    obtain ⟨frame, parent⟩ := record
    have missing : frame.find? name = none := by simpa [local?, found] using unbound
    obtain rfl : parent = none := by simpa [parent?, found] using outermost
    simp only [Scopes.lookup, Scopes.find?_cons, missing]
    rfl

end Steps

theorem has_iff {tree : ScopeTree} {scope : Nat} {name : Bytes} :
    tree.has scope name ↔ ∃ value, tree.local? scope name = some value := by
  rw [← Option.isSome_iff_exists, has, local?]
  cases tree.scopes[scope]? <;> simp [Frame.has]

theorem mem_names_iff {tree : ScopeTree} {scope : Nat} {name : Bytes} :
    name ∈ tree.names scope ↔ tree.has scope name := by
  rw [names, has]
  cases tree.scopes[scope]? <;> simp [Frame.has_iff_mem_names]

theorem pairwise_names (tree : ScopeTree) (scope : Nat) :
    (tree.names scope).Pairwise (· < ·) := by
  rw [names]
  cases tree.scopes[scope]? with
  | none => exact .nil
  | some record => exact List.pairwise_map.2 record.frame.sorted

/-- What a tree has to do with the history it was grown by. -/
structure Follows (history : List Request) (tree : ScopeTree) : Prop where
  length : tree.scopes.length = size history
  older : ∀ scope parent, tree.parent? scope = some parent → parent < scope
  parent : ∀ scope parent, tree.parent? scope = some parent ↔ EnteredFrom history scope parent
  bound : ∀ scope name value,
    tree.local? scope name = some value ↔ LastSet history scope name value

theorem follows_root : Follows [] root where
  length := rfl
  older scope parent entered := by cases scope <;> cases entered
  parent scope parent := by
    constructor
    · intro entered
      cases scope <;> cases entered
    · rintro ⟨before, later, split, -⟩
      cases before <;> cases split
  bound scope name value := by
    constructor
    · intro bound
      cases scope <;> cases bound
    · rintro ⟨before, later, split, -⟩
      cases before <;> cases split

namespace Follows

variable {history : List Request} {tree : ScopeTree} (follows : Follows history tree)
include follows

theorem enter {scope : Nat} (there : scope < size history) :
    Follows (history ++ [.enter scope]) (tree.enter scope).2 where
  length := by
    rw [size_snoc, ← follows.length]
    simp [ScopeTree.enter, Request.enters]
  older other parent entered := by
    rw [parent?_enter] at entered
    split at entered
    · next new =>
      cases entered
      rw [new, follows.length]
      exact there
    · exact follows.older other parent entered
  parent other parent := by
    rw [parent?_enter, enteredFrom_snoc, ← follows.parent, ← follows.length]
    by_cases new : other = tree.scopes.length
    · -- nothing was entered yet under the new number
      have beyond : tree.parent? tree.scopes.length = none := by simp [parent?]
      simp [new, beyond]
    · simp [new]
  bound other name value := by
    rw [local?_enter, lastSet_snoc, ← follows.bound]
    simp

theorem set {scope : Nat} (there : scope < size history) (name : Bytes) (value : Expr) :
    Follows (history ++ [.set scope name value]) (tree.set scope name value) where
  length := by
    rw [size_snoc, ← follows.length]
    simp [ScopeTree.set, Request.enters]
  older other parent entered := by
    rw [parent?_set] at entered
    exact follows.older other parent entered
  parent other parent := by
    rw [parent?_set, enteredFrom_snoc, ← follows.parent]
    simp
  bound other x v := by
    rw [local?_set tree (follows.length ▸ there), lastSet_snoc, ← follows.bound]
    by_cases here : other = scope ∧ x = name
    · obtain ⟨rfl, rfl⟩ := here
      simp
    · have differs (w : Expr) : Request.set scope name value ≠ .set other x w := by
        intro same
        cases same
        exact here ⟨rfl, rfl⟩
      simp [if_neg here, differs]

theorem read {request : Request} (reads : request.reads) :
    Follows (history ++ [request]) tree := by
  cases request with
  | enter | set => cases reads
  | parent | lookup | has | names =>
    refine ⟨?_, follows.older, fun scope parent => ?_, fun scope name value => ?_⟩
    · rw [size_snoc, follows.length]
      rfl
    · rw [follows.parent, enteredFrom_snoc]
      simp
    · rw [follows.bound, lastSet_snoc]
      simp

theorem perform {request : Request} (there : request.scope < size history) :
    Follows (history ++ [request]) (tree.perform request) := by
  cases request with
  | enter scope => exact follows.enter there
  | set scope name value => exact follows.set there name value
  | parent | lookup | has | names => exact follows.read rfl

theorem everSet_iff_local? {scope : Nat} {name : Bytes} :
    EverSet history scope name ↔ ∃ value, tree.local? scope name = some value := by
  simp only [everSet_iff, follows.bound]

theorem local?_eq_none {scope : Nat} {name : Bytes} (never : ¬ EverSet history scope name) :
    tree.local? scope name = none := by
  rw [follows.everSet_iff_local?] at never
  simpa [← Option.eq_none_iff_forall_ne_some] using never

/-- By induction on the way outwards to the scope that holds the name. -/
theorem lookup_eq {scope owner : Nat} {name : Bytes} {value : Expr}
    (nearest : Nearest history name scope owner) (last : LastSet history owner name value) :
    tree.lookup scope name = value := by
  induction nearest with
  | here _ => exact lookup_of_local? ((follows.bound _ _ _).2 last)
  | outer never entered _ ih =>
    have parent := (follows.parent _ _).2 entered
    rw [lookup_of_parent? (follows.local?_eq_none never) parent (follows.older _ _ parent)]
    exact ih last

/-- By induction on the number of the scope, as its parent is older. -/
theorem nearest_or_never (scope : Nat) (name : Bytes) :
    (∃ owner value, Nearest history name scope owner ∧ LastSet history owner name value) ∨
      ((∀ outer, Encloses history outer scope → ¬ EverSet history outer name) ∧
        tree.lookup scope name = .nothing) := by
  induction scope using Nat.strongRecOn with
  | ind scope ih =>
    by_cases ever : EverSet history scope name
    · obtain ⟨value, last⟩ := everSet_iff.1 ever
      exact .inl ⟨scope, value, .here ever, last⟩
    have unbound := follows.local?_eq_none ever
    cases entered : tree.parent? scope with
    | none =>
      refine .inr ⟨fun outer encloses => ?_, lookup_of_root unbound entered⟩
      cases encloses with
      | self => exact ever
      | outer entering _ =>
        rw [(follows.parent _ _).2 entering] at entered
        cases entered
    | some parent =>
      have entering := (follows.parent _ _).1 entered
      have older := follows.older _ _ entered
      rcases ih parent older with ⟨owner, value, nearest, last⟩ | ⟨never, nothing⟩
      · exact .inl ⟨owner, value, .outer ever entering nearest, last⟩
      · refine .inr ⟨fun outer encloses => ?_, ?_⟩
        · cases encloses with
          | self => exact ever
          | outer entering' rest =>
            have same := (follows.parent _ _).2 entering'
            rw [entered] at same
            cases same
            exact never outer rest
        · rw [lookup_of_parent? unbound entered older, nothing]

end Follows

/-- Every valid history is followed by the tree that it grows. -/
theorem Valid.follows {history : List Request} (valid : Valid history) :
    Follows history (grown history) := by
  induction history using List.reverseRecOn with
  | nil => exact follows_root
  | append_singleton history request ih =>
    obtain ⟨earlier, there⟩ := valid_snoc valid
    rw [grown_snoc]
    exact (ih earlier).perform there

/-- What a tree shows is told by the history that grew it. A name has the value that it was last set
to in the nearest scope, going outwards, in which it was ever set, be that nothing; without such a
scope it has none. A scope holds just the names that were ever set in it, and lists them in their
order. Leaving out a request that only reads leaves out its answer, and changes no other. -/
theorem scopes_follow_history {history : List Request} (valid : Valid history) :
    let tree := grown history
    (∀ scope name,
      (∀ owner value, Nearest history name scope owner → LastSet history owner name value →
        tree.lookup scope name = value) ∧
      ((∃ owner value, Nearest history name scope owner ∧ LastSet history owner name value) ∨
        ((∀ outer, Encloses history outer scope → ¬ EverSet history outer name) ∧
          tree.lookup scope name = .nothing)) ∧
      (tree.has scope name ↔ EverSet history scope name) ∧
      (name ∈ tree.names scope ↔ EverSet history scope name)) ∧
    (∀ scope, (tree.names scope).Pairwise (· < ·)) ∧
    ∀ before request later, history = before ++ request :: later →
      (root.answers history)[before.length]? = some ((grown before).answer request) ∧
      (request.reads → root.answers (before ++ later) =
        (root.answers history).eraseIdx before.length) := by
  intro tree
  have follows : Follows history tree := valid.follows
  have held (scope : Nat) (name : Bytes) : tree.has scope name ↔ EverSet history scope name := by
    rw [has_iff, follows.everSet_iff_local?]
  refine ⟨fun scope name => ⟨fun owner value => follows.lookup_eq,
    follows.nearest_or_never scope name, held scope name, ?_⟩, pairwise_names tree, ?_⟩
  · rw [mem_names_iff, held]
  · rintro before request later rfl
    have split := answers_append root before (request :: later)
    refine ⟨?_, fun reads => ?_⟩
    · rw [split, ← length_answers root before, List.getElem?_append_right (Nat.le_refl _)]
      simp [answers, grown]
    · rw [split, answers_append, ← length_answers root before,
        List.eraseIdx_append_of_length_le (Nat.le_refl _), answers, perform_of_reads reads]
      simp

/-- `x` is set in the root, set to nothing in a child of it, and set anew in the root when the child
has a child of its own, which still sees nothing. -/
theorem scopes_follow_history_hidden :
    let x := bytes "x"
    let old := Expr.boolean noLoc false
    let new := Expr.boolean noLoc true
    let before : List Request :=
      [.set 0 x old, .enter 0, .set 1 x .nothing, .enter 1, .enter 0]
    let history := before ++ [.lookup 3 x, .set 0 x new]
    let tree := grown history
    Valid history ∧ tree.lookup 2 x = .nothing ∧ tree.has 1 x ∧ tree.lookup 3 x = new ∧
      root.answers (before ++ [.set 0 x new]) = (root.answers history).eraseIdx 5 := by
  intro x old new before history tree
  have valid : Valid history := by decide
  obtain ⟨shown, -, told⟩ := scopes_follow_history valid
  have inner : EnteredFrom history 2 1 :=
    ⟨[.set 0 x old, .enter 0, .set 1 x .nothing], [.enter 0, .lookup 3 x, .set 0 x new], rfl, rfl⟩
  have sibling : EnteredFrom history 3 0 :=
    ⟨[.set 0 x old, .enter 0, .set 1 x .nothing, .enter 1], [.lookup 3 x, .set 0 x new], rfl, rfl⟩
  have hidden : LastSet history 1 x .nothing :=
    ⟨[.set 0 x old, .enter 0], [.enter 1, .enter 0, .lookup 3 x, .set 0 x new], rfl, by simp⟩
  have latest : LastSet history 0 x new := ⟨before ++ [.lookup 3 x], [], rfl, by simp⟩
  have never (scope : Nat) (young : 1 < scope) : ¬ EverSet history scope x := by
    rintro ⟨value, member⟩
    simp [history, before] at member
    omega
  refine ⟨valid, ?_, ?_, ?_, (told before (.lookup 3 x) [.set 0 x new] rfl).2 rfl⟩
  · exact (shown 2 x).1 1 .nothing
      (.outer (never 2 (by omega)) inner (.here (everSet_iff.2 ⟨_, hidden⟩))) hidden
  · exact (shown 1 x).2.2.1.2 (everSet_iff.2 ⟨_, hidden⟩)
  · exact (shown 3 x).1 0 new
      (.outer (never 3 (by omega)) sibling (.here (everSet_iff.2 ⟨_, latest⟩))) latest

end Sketch.ScopeTree
