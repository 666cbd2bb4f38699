import Coro.Compilation
import Coro.Proofs.Resolution.Body

/-! What stands behind a program: its description was read, resolved, lowered and checked. -/

namespace Coro

theorem mapError_eq_ok {ε ε' α : Type} {rename : ε → ε'} {step : Except ε α} {value : α} :
    step.mapError rename = .ok value ↔ step = .ok value := by
  cases step with
  | ok found => constructor <;> intro same <;> cases same <;> rfl
  | error failure => constructor <;> intro same <;> cases same

namespace Source

variable {source : Source}

theorem analyze_eq_ok {resolved : Resolved} :
    source.analyze = .ok resolved ↔
      ∃ description, source.parse = .ok description ∧ description.resolve = .ok resolved := by
  simp only [analyze, bind_eq_ok, mapError_eq_ok]

/-- A linked program comes from a model, and its calls form no circle. -/
theorem link_eq_ok {program : Program} {warnings : List (Located Warning)}
    (linked : source.link = .ok (program, warnings)) :
    ∃ description resolved, source.parse = .ok description ∧
      description.resolve = .ok resolved ∧ resolved.model.lower = .ok program ∧
      program.checkCalls = .ok () := by
  simp only [link, Model.link, bind_eq_ok, mapError_eq_ok, analyze_eq_ok, pure_eq_ok] at linked
  obtain ⟨resolved, ⟨description, parsed, meant⟩, ⟨found, unused⟩,
    ⟨_, lowered, _, checked, given⟩, result⟩ := linked
  cases given
  cases result
  exact ⟨description, resolved, parsed, meant, lowered, checked⟩

/-- Linking a program is a check of its calls; it gives the program and all warnings. -/
theorem link_eq {description : Ast.Description} {resolved : Resolved} {program : Program}
    (parsed : source.parse = .ok description) (meant : description.resolve = .ok resolved)
    (lowered : resolved.model.lower = .ok program) :
    source.link = (program.checkCalls.mapError .linkage).map fun _ =>
      (program, resolved.warnings ++ program.unusedSubroutines) := by
  -- Everything before the check succeeds, one step after the other.
  rw [link, analyze_eq_ok.mpr ⟨description, parsed, meant⟩]
  change (resolved.model.link >>= _) = _
  rw [Model.link, lowered]
  change ((program.checkCalls.mapError Failure.linkage >>= _) >>= _) = _
  cases program.checkCalls <;> rfl

/-- Something that is true of the program of a source, if reading the source tells so. -/
theorem links_of_decide (source : Source) {said : Program → Prop} [DecidablePred said]
    (runs : (match source.link with
      | .ok found => decide (said found.1)
      | .error _ => false) = true) :
    ∃ program warnings, source.link = .ok (program, warnings) ∧ said program := by
  cases linked : source.link with
  | error failure => rw [linked] at runs; cases runs
  | ok found =>
    rw [linked] at runs
    exact ⟨found.1, found.2, rfl, of_decide_eq_true runs⟩

/-- The program of a source before its calls are checked, if it has one. -/
def lowered? (source : Source) : Option Program :=
  source.analyze.toOption.bind fun resolved => resolved.model.lower.toOption

/-- Something that is true of a lowered program, linked or not, if reading its source tells so. -/
theorem lowers_of_decide (source : Source) {said : Program → Prop} [DecidablePred said]
    (runs : (source.lowered?.any fun program => decide (said program)) = true) :
    ∃ description resolved program, source.parse = .ok description ∧
      description.resolve = .ok resolved ∧ resolved.model.lower = .ok program ∧ said program := by
  unfold lowered? at runs
  cases analyzed : source.analyze with
  | error failure => rw [analyzed] at runs; cases runs
  | ok resolved =>
    rw [analyzed, Except.toOption, Option.bind_some] at runs
    obtain ⟨description, parsed, meant⟩ := analyze_eq_ok.mp analyzed
    cases lowered : resolved.model.lower with
    | error fault => rw [lowered] at runs; cases runs
    | ok program =>
      rw [lowered] at runs
      exact ⟨description, resolved, program, parsed, meant, lowered, of_decide_eq_true runs⟩

/-- A thread that passes an element of an array to a subroutine, which waits for it. -/
def waiting : Source :=
  .ofText "waiting"
    "thread t{sub s(u8 n){wait_until n;}loop{let u8 a[2];a[1]=3;call s(a[1]);}}main{}"

theorem waiting_links : ∃ program warnings, waiting.link = .ok (program, warnings) := by
  have accepted : waiting.link.isOk = true := by decide +kernel
  cases linked : waiting.link with
  | error failure => rw [linked] at accepted; cases accepted
  | ok found => exact ⟨found.1, found.2, rfl⟩

end Source

end Coro
