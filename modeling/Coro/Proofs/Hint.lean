import Coro.Proofs.Hint.Emission
import Coro.Proofs.Hint.Execution

/-!
Hints are advice.

A description that is resolved is also resolved without its hints. The model then differs in nothing
but the wishes, so that its program has the same code, runs the same way on every host, and is
refused for the same reason if it is refused. Wishes for registers leave no mark at all on what is
generated for a target without registers to bind.
-/

namespace Coro

/-! ## Programs that run alike -/

/-- Two programs that have the same code, and that no host can tell apart. -/
structure Program.Alike (program other : Program) : Prop where
  /-- Suspension points, instructions and kept variables of each coroutine. -/
  coroutines : program.coroutines = other.coroutines
  functions : program.functions = other.functions
  hooks : program.hooks = other.hooks
  entry : program.entry = other.entry
  widths : program.coroutines.map StateMachine.width = other.coroutines.map StateMachine.width
  frames : program.frames = other.frames
  /-- Every operation has the same outcome and leaves the same machine, its host included. -/
  traces : ∀ (σ : Type) [Host σ] (host : σ) (operations : List (Nat × Command)),
    (Machine.start program host).trace program operations =
      (Machine.start other host).trace other operations
  /-- What coroutines are doing is seen alike from outside. -/
  states : ∀ {σ : Type} (machine : Machine σ) (path : String),
    machine.stateOf? program path = machine.stateOf? other path
  /-- What static variables hold is seen alike from outside. -/
  statics : ∀ {σ : Type} (machine : Machine σ) (path : String) (index : Nat),
    machine.element? program path index = machine.element? other path index

/-- Programs that differ in advice alone run alike. -/
theorem Program.alike_of_without {advice : Advice} {program other : Program}
    (same : program.without advice = other.without advice) : program.Alike other := by
  -- Code is no part of the model, so it is the same from the start.
  obtain ⟨-, coroutines, functions, hooks, entry⟩ := Program.mk.inj same
  refine ⟨coroutines, functions, hooks, entry, ?_, ?_, ?_, ?_, ?_⟩
  · rw [coroutines]
  · simp only [Program.frames, coroutines]
  -- The rest is looked up in the model, where advice makes no difference.
  · intro σ _ host operations
    rw [← Machine.start_without advice program, ← Machine.trace_without advice program, same,
      Machine.start_without, Machine.trace_without]
  · intro σ machine path
    rw [← Machine.stateOf?_without advice program, same, Machine.stateOf?_without]
  · intro σ machine path index
    rw [← Machine.element?_without advice program, same, Machine.element?_without]

/-- Two outcomes of linking: both refused for one reason, or both accepted with one warning. -/
inductive LinkedAlike : Except Failure (Program × List (Located Warning)) →
    Except Failure (Program × List (Located Warning)) → Prop where
  | refused (failure : Failure) : LinkedAlike (.error failure) (.error failure)
  | accepted {program other : Program} (warnings : List (Located Warning))
      (alike : program.Alike other) : LinkedAlike (.ok (program, warnings)) (.ok (other, warnings))

/-- Models that differ in advice alone are linked alike. -/
theorem Model.linkedAlike {advice : Advice} {model other : Model}
    (same : model.without advice = other.without advice) : LinkedAlike model.link other.link := by
  -- What is left of both outcomes is the same, so they have the same form.
  have linked : model.link.map (Prod.map (Program.without advice) id) =
      other.link.map (Prod.map (Program.without advice) id) := by
    rw [← link_without, ← link_without, same]
  cases first : model.link with
  | error failure =>
    rw [first] at linked
    cases second : other.link with
    | error failure' =>
      rw [second] at linked
      cases linked
      exact .refused failure
    | ok found => rw [second] at linked; cases linked
  | ok found =>
    rw [first] at linked
    cases second : other.link with
    | error failure => rw [second] at linked; cases linked
    | ok found' =>
      rw [second] at linked
      obtain ⟨program, warnings⟩ := found
      obtain ⟨program', warnings'⟩ := found'
      have pairs := Except.ok.inj linked
      have warned : warnings = warnings' := congrArg Prod.snd pairs
      subst warned
      exact .accepted warnings (Program.alike_of_without (congrArg Prod.fst pairs))

/-! ## Generated files -/

/-- Where no register can be bound, wishes for them leave no mark. -/
theorem Model.generate_without (model : Model) (name : String) :
    (model.without .registers).generate .hosted name = model.generate .hosted name := by
  -- Linking fails on both sides or on none.
  simp only [generate, link_without]
  cases model.link with
  | error failure => rfl
  | ok found =>
    obtain ⟨program, warnings⟩ := found
    -- Neither program has bindings, whatever it wishes for.
    have unbound (program : Program) : program.bindRegisters .hosted = (.empty, []) := rfl
    have text := Emit.fileText_without .hosted program .empty name
    simp only [Except.map, Prod.map, bind, Except.bind, Program.compile, Compiled.text,
      Compiled.flags, unbound, text]
    rfl

/-! ## Descriptions -/

/--
Hints are advice.

Without any hints, a description is still resolved, into a model that is the same but for the
wishes. Lowering and linking the two models come to the same. Without wishes for registers, what is
generated for the machine that compiles it is the same text.
-/
theorem Ast.Description.hints_are_advice {description : Ast.Description} {resolved : Resolved}
    (done : description.resolve = .ok resolved) :
    (∃ plain, (description.without .all).resolve = .ok plain ∧
      plain.model.without .all = resolved.model.without .all ∧
      plain.model.lower.map (Program.without .all) =
        resolved.model.lower.map (Program.without .all) ∧
      LinkedAlike plain.model.link resolved.model.link) ∧
    ∃ plain, (description.without .registers).resolve = .ok plain ∧
      ∀ name, plain.model.generate .hosted name = resolved.model.generate .hosted name := by
  -- Both parts follow from the models, which differ in the advice alone.
  constructor
  · obtain ⟨plain, meant, same⟩ := resolve_without .all done
    exact ⟨plain, meant, same, by rw [← Model.lower_without, ← Model.lower_without, same],
      Model.linkedAlike same⟩
  · obtain ⟨plain, meant, same⟩ := resolve_without .registers done
    refine ⟨plain, meant, fun name => ?_⟩
    rw [← Model.generate_without, same, Model.generate_without]

/-- A thread, with wishes for its variable, for its state and for its code. -/
def Ast.Description.advised : Ast.Description where
  items :=
    [.thread ⟨⟨"t", default⟩, [], [], [],
        [.letVar ⟨.u8, default⟩ ⟨"a", default⟩ none none, .yield default]⟩,
      .useReg ⟨⟨["t", "a"]⟩, default⟩ (some ⟨"r4", default⟩),
      .useReg ⟨⟨["t"]⟩, default⟩ none,
      .tune ⟨⟨["t"]⟩, default⟩ [⟨"no_inline", default⟩],
      .entry default ⟨[], [], []⟩]
  last := default

/-- The wishes of the thread are heard, and the thread is the same without them. -/
theorem Ast.Description.advised_without_hints : ∃ resolved, advised.resolve = .ok resolved ∧
    (resolved.model.coroutines.map fun coroutine =>
      (coroutine.locals.map Local.hint, coroutine.stateHint, coroutine.tuning)) =
        [([some ⟨.exact 4, default⟩], some ⟨.any, default⟩, ⟨false, true, false⟩)] ∧
    (∃ plain, (advised.without .all).resolve = .ok plain ∧
      plain.model.without .all = resolved.model.without .all ∧
      plain.model.lower.map (Program.without .all) =
        resolved.model.lower.map (Program.without .all) ∧
      LinkedAlike plain.model.link resolved.model.link) ∧
    ∃ plain, (advised.without .registers).resolve = .ok plain ∧
      ∀ name, plain.model.generate .hosted name = resolved.model.generate .hosted name := by
  have heard : (advised.resolve.toOption.map fun resolved =>
      resolved.model.coroutines.map fun coroutine =>
        (coroutine.locals.map Local.hint, coroutine.stateHint, coroutine.tuning)) =
          some [([some ⟨.exact 4, default⟩], some ⟨.any, default⟩, ⟨false, true, false⟩)] := by
    decide +kernel
  obtain ⟨resolved, found, wishes⟩ := Option.map_eq_some_iff.mp heard
  have done : advised.resolve = .ok resolved := by
    cases outcome : advised.resolve with
    | error fault => rw [outcome] at found; cases found
    | ok value => rw [outcome] at found; cases found; rfl
  exact ⟨resolved, done, wishes, hints_are_advice done⟩

end Coro
