import Sketch.Console.Diagnostic
import Sketch.Proofs.Source.Descent
import Sketch.Proofs.Source.Grammar
import Sketch.Proofs.Source.Skip

/-! What is wrong with a source, found in one scan over its tokens that remembers which lists are
open. Recursive descent reports the same diagnostics in the same order. -/
namespace Sketch

/-- The diagnostics of the tokens that are left of a source of `size` bytes. The lists at `opens`
are open, innermost first; `skipped` lists more are open inside one that is nested too deeply, and
nothing in there is diagnosed. -/
def diagnose (limit size : Nat) : (skipped : Nat) → (opens : List Nat) → List Token →
    List Diagnostic
  | _, opens, [] => opens.map fun (loc : Nat) =>
    ⟨bytes "Unexpected end of input - missing closing parenthesis", loc, 1⟩
  | skipped + 1, opens, ⟨_, .opening⟩ :: rest => diagnose limit size (skipped + 2) opens rest
  | skipped + 1, opens, ⟨_, .closing⟩ :: rest => diagnose limit size skipped opens rest
  | skipped + 1, opens, _ :: rest => diagnose limit size (skipped + 1) opens rest
  | 0, opens, ⟨loc, .opening⟩ :: rest =>
    if opens.length < limit then diagnose limit size 0 (loc :: opens) rest
    else ⟨bytes "Maximum nesting depth exceeded", loc, 1⟩ :: diagnose limit size 1 opens rest
  | 0, [], ⟨loc, .closing⟩ :: rest =>
    ⟨bytes "Unexpected closing parenthesis", loc, 1⟩ :: diagnose limit size 0 [] rest
  | 0, _ :: outer, ⟨_, .closing⟩ :: rest => diagnose limit size 0 outer rest
  | 0, opens, ⟨loc, .number token⟩ :: rest =>
    if IsNumeral token then diagnose limit size 0 opens rest
    else ⟨bytes "Invalid number format '" ++ token ++ bytes "'", loc, token.length⟩
      :: diagnose limit size 0 opens rest
  | 0, opens, ⟨loc, .openString _⟩ :: rest =>
    ⟨bytes "Unterminated string literal", loc, size - loc⟩ :: diagnose limit size 0 opens rest
  | 0, opens, _ :: rest => diagnose limit size 0 opens rest

/-- Behind a list that is nested too deeply the scan goes on where skipping it ends. -/
theorem diagnose_skipped (limit size : Nat) (opens : List Nat) (depth : Nat) (p : Place) :
    diagnose limit size (depth + 1) opens p.tokens =
      diagnose limit size 0 opens (skipList false depth p.pos p.rest).tokens := by
  induction p using Place.tokens.induct generalizing depth with
  | case1 p ended =>
    have last := Place.next?_eq_none (Place.token?_eq_none_iff.1 ended)
    rw [Place.tokens_of_none ended, Place.skipList_of_none ended, Place.tokens_of_rest_nil last]
    rfl
  | case2 p t q found _ ih =>
    rw [Place.tokens_of_some found, Place.skipList_of_token? found]
    obtain ⟨loc, lexeme⟩ := t
    cases lexeme with
    | opening => exact ih (depth + 1)
    | closing =>
      cases depth with
      | zero => rfl
      | succ depth => exact ih depth
    | string | openString | number | symbol => exact ih depth

/-- The lists that are open while an aim is pursued inside those at `opens`. -/
def Aim.within (opens : List Nat) : Aim → List Nat
  | .expr => opens
  | .items loc _ => loc :: opens

/-- The scan meets what the readers report, and then goes on behind what they read. Only outside
every list does an expression start at a closing parenthesis. -/
theorem Reads.diagnose_eq {limit level size : Nat} {aim : Aim} {p q : Place} {y : Yield}
    (reads : Reads limit aim level p y q) (opens : List Nat) (nested : opens.length = level)
    (sized : p.stop = size)
    (inside : aim = .expr → 0 < level → ∀ loc r, p.token? ≠ some (⟨loc, .closing⟩, r)) :
    diagnose limit size 0 (aim.within opens) p.tokens =
      y.errors.map ParseError.diagnostic ++ diagnose limit size 0 opens q.tokens := by
  induction reads generalizing opens with
  | string found | symbol found =>
    rw [Place.tokens_of_some found]
    rfl
  | openString found =>
    have length := Place.stop_eq_of_openString found
    rw [Place.tokens_of_some found, ← sized, length]
    simp only [Aim.within, diagnose, List.map_cons, List.map_nil, List.cons_append,
      List.nil_append, ParseError.diagnostic, Flaw.message, Flaw.length]
    congr 2
    omega
  | number found spelled =>
    have legal : IsNumeral _ := isSome_ofToken?_iff.1 (by rw [spelled]; rfl)
    rw [Place.tokens_of_some found]
    simp only [Aim.within, diagnose, if_pos legal]
    rfl
  | badNumber found spelled =>
    have illegal : ¬ IsNumeral _ := mt isSome_ofToken?_iff.2 (by rw [spelled]; simp)
    rw [Place.tokens_of_some found]
    simp only [Aim.within, diagnose, if_neg illegal]
    rfl
  | strayClose found =>
    obtain rfl : opens = [] := by
      by_contra some
      exact inside rfl (nested ▸ List.length_pos_iff.2 some) _ _ found
    rw [Place.tokens_of_some found]
    rfl
  | tooDeep found deep =>
    have full : ¬ opens.length < limit := by omega
    rw [Place.tokens_of_some found]
    simp only [Aim.within, diagnose, if_neg full, diagnose_skipped]
    rfl
  | list found free _ ih =>
    have room : opens.length < limit := by omega
    rw [Place.tokens_of_some found]
    dsimp only [Aim.within]
    rw [diagnose, if_pos room]
    exact ih opens nested ((Place.stop_of_token? found).trans sized) nofun
  | ended found =>
    have last := Place.next?_eq_none (Place.token?_eq_none_iff.1 found)
    rw [Place.tokens_of_none found, Place.tokens_of_rest_nil last]
    rfl
  | closed found =>
    rw [Place.tokens_of_some found]
    rfl
  | item found unclosed readsFirst _ first later =>
    rw [List.map_append, List.append_assoc,
      ← later opens nested (readsFirst.stop.trans sized) nofun]
    exact first (_ :: opens) (by simp [nested]) sized fun _ _ =>
      Place.token?_ne_closing found unclosed

/-- A whole source, from the start or from any place between two of its expressions. -/
theorem ReadsForms.errors_eq {limit size : Nat} {p : Place} {forms : List Expr}
    {errors : List ParseError} {visits : List Visit}
    (reads : ReadsForms limit p forms errors visits) (sized : p.stop = size) :
    errors.map ParseError.diagnostic = diagnose limit size 0 [] p.tokens := by
  induction reads with
  | ended found =>
    rw [Place.tokens_of_none found]
    rfl
  | form found readsFirst _ ih =>
    have one := readsFirst.diagnose_eq [] rfl sized (by omega)
    rw [List.map_append, ih (readsFirst.stop.trans sized)]
    exact one.symm

theorem diagnostics_read (source : Bytes) :
    (read source).errors.map ParseError.diagnostic =
      diagnose maxDepth source.length 0 [] (tokens source) :=
  (readsForms_read source).errors_eq (Nat.zero_add _)

/-- The errors of a source are those of the scan, in its order, and without any the source is a
program. -/
theorem program_error_iff_diagnose (source : Bytes) :
    ((∃ errors, (read source).program = .error errors) ↔
      diagnose maxDepth source.length 0 [] (tokens source) ≠ []) ∧
    (read source).errors.map ParseError.diagnostic =
      diagnose maxDepth source.length 0 [] (tokens source) ∧
    ∀ errors, (read source).program = .error errors →
      errors.map ParseError.diagnostic =
        diagnose maxDepth source.length 0 [] (tokens source) := by
  rw [← diagnostics_read]
  unfold Reading.program
  split <;> simp_all

end Sketch
