import Coro.Proofs.Resolution.Body
import Coro.Resolution

/-!
What each stage of resolution can do.

Items are declared first, bodies are resolved then, and hints are attached last.
-/

namespace Coro

variable {description : Ast.Description}

section Steps

variable {σ ε α β : Type} {before after : σ}

/-- Two steps succeed if the first does and the second does behind it. -/
theorem run_bind_eq_ok {first : StateT σ (Except ε) α} {next : α → StateT σ (Except ε) β}
    {before : σ} {result : β × σ} :
    (first >>= next).run before = .ok result ↔
      ∃ value between, first.run before = .ok (value, between) ∧
        (next value).run between = .ok result := by
  rw [StateT.run_bind, bind_eq_ok]
  constructor
  · rintro ⟨⟨value, between⟩, done, rest⟩
    exact ⟨value, between, done, rest⟩
  · rintro ⟨value, between, done, rest⟩
    exact ⟨(value, between), done, rest⟩

/-- A check that changes nothing. -/
theorem run_lift_eq_ok {check : Except ε α} {value : α} :
    (liftM check : StateT σ (Except ε) α).run before = .ok (value, after) ↔
      check = .ok value ∧ before = after := by
  cases check with
  | error fault =>
    simp [liftM, monadLift, MonadLift.monadLift, StateT.run, StateT.lift, Bind.bind, Except.bind]
  | ok found =>
    simp [liftM, monadLift, MonadLift.monadLift, StateT.run, StateT.lift, Bind.bind, Except.bind,
      Pure.pure, Except.pure]

theorem run_throw_ne_ok {fault : ε} {before : σ} {result : α × σ} :
    (throw fault : StateT σ (Except ε) α).run before ≠ .ok result := by
  simp [throw, throwThe, MonadExceptOf.throw, StateT.run, StateT.lift, Bind.bind, Except.bind]

theorem run_pure_eq_ok {value result : α} :
    (pure value : StateT σ (Except ε) α).run before = .ok (result, after) ↔
      value = result ∧ before = after := by
  rw [StateT.run_pure, pure_eq_ok, Prod.mk.injEq]

theorem run_get_eq_ok {before found after : σ} :
    (get : StateT σ (Except ε) σ).run before = .ok (found, after) ↔
      before = found ∧ before = after := by
  rw [StateT.run_get, pure_eq_ok, Prod.mk.injEq]

theorem run_modify_eq_ok {change : σ → σ} {result : Unit} :
    (modify change : StateT σ (Except ε) Unit).run before = .ok (result, after) ↔
      change before = after := by
  rw [StateT.run_modify, pure_eq_ok, Prod.mk.injEq]
  exact and_iff_right rfl

end Steps

namespace Resolver

/--
What the declaration of an item does.

An entity is added to its table first and gets its name then. Its body waits.
-/
inductive Declared (before : Tables) : Ast.Item → Option Pending → Tables → Prop where
  | header (name : Located String) : Declared before (.header name) none
      { before with headers := before.headers ++ [name.value] }
  | external {name : Located String} {kind : ExternalKind} {after : Tables}
      (named : (defineGlobal name (.external before.externals.length)).run { before with
        externals := before.externals ++ [⟨name.value, kind, name.location⟩] } =
          .ok ((), after)) :
      Declared before (.external name kind) none after
  | static {decl : Ast.StaticDecl} {id : StaticId} {between after : Tables}
      (added : (static .global (.ofName decl.name.value) decl).run before = .ok (id, between))
      (named : (defineGlobal decl.name (.static id)).run between = .ok ((), after)) :
      Declared before (.static decl) none after
  | function {written : Ast.Function} {after : Tables}
      (named : (defineGlobal written.name (.function before.functions.length)).run
        { before with functions := before.functions ++
          [⟨written.name.value, written.parameters.length, written.returns.map Located.value,
            written.parameters.map parameterLocal, .none, [], written.name.location⟩] } =
          .ok ((), after)) :
      Declared before (.function written) (some (.function before.functions.length written)) after
  | thread {written : Ast.Coroutine} {id : CoroutineId} {between after : Tables}
      (added : (declareCoroutine (.ofName written.name.value) none none written).run before =
        .ok (id, between))
      (named : (defineGlobal written.name (.coroutine id)).run between = .ok ((), after)) :
      Declared before (.thread written) (some (.thread id written)) after
  | hook {name : Located String} {kind : HookKind} {body : Ast.Body} {after : Tables}
      (named : (defineGlobal name (.hook before.hooks.length)).run { before with
        hooks := before.hooks ++ [⟨name.value, kind, [], .none, [], name.location⟩] } =
          .ok ((), after)) :
      Declared before (.hook name kind body) (some (.hook before.hooks.length name.value body))
        after
  | entry (location : Location) (body : Ast.Body) (free : before.entry = none) :
      Declared before (.entry location body) (some (.entry location body))
        { before with entry := some ⟨[], [], location⟩ }
  | cflags {name : Located String} {requested : Option (Located String)} {chosen : Profile}
      (free : before.flags = none) (known : profile requested = .ok chosen) :
      Declared before (.cflags name requested) none
        { before with flags := some ⟨name.value, chosen⟩ }
  | useReg (path : Located Path) (group : Option (Located String)) :
      Declared before (.useReg path group) none before
  | tune (path : Located Path) (flags : List (Located String)) :
      Declared before (.tune path flags) none before

/-- What stands behind a check runs only if the check lets it through. -/
theorem run_unless_eq_ok {taken : Bool} {fault : Located ResolutionError} {α : Type}
    {next : Resolver α} {before : Tables} {result : α × Tables}
    (done : (do
      if taken then throw fault
      next : Resolver α).run before = .ok result) :
    taken = false ∧ next.run before = .ok result := by
  cases taken with
  | false => exact ⟨rfl, done⟩
  | true =>
    obtain ⟨_, _, thrown, -⟩ := run_bind_eq_ok.mp done
    exact absurd thrown run_throw_ne_ok

/-- Declaring an item does one of these things, or fails. -/
theorem declare_declared {item : Ast.Item} {waiting : Option Pending} {before after : Tables}
    (done : (declare item).run before = .ok (waiting, after)) :
    Declared before item waiting after := by
  cases item with
    simp only [declare, run_bind_eq_ok, run_get_eq_ok, run_modify_eq_ok, run_pure_eq_ok] at done
  | header name =>
    obtain ⟨_, _, rfl, rfl, rfl⟩ := done
    exact .header name
  | external name kind =>
    obtain ⟨_, _, ⟨rfl, rfl⟩, _, _, rfl, _, _, named, rfl, rfl⟩ := done
    exact .external named
  | static decl =>
    obtain ⟨id, between, added, _, _, named, rfl, rfl⟩ := done
    exact .static added named
  | function written =>
    obtain ⟨_, _, ⟨rfl, rfl⟩, _, _, rfl, _, _, named, rfl, rfl⟩ := done
    exact .function named
  | thread written =>
    obtain ⟨id, between, added, _, _, named, rfl, rfl⟩ := done
    exact .thread added named
  | hook name kind body =>
    obtain ⟨_, _, ⟨rfl, rfl⟩, _, _, rfl, _, _, named, rfl, rfl⟩ := done
    exact .hook named
  | entry location body =>
    obtain ⟨_, _, ⟨rfl, rfl⟩, next⟩ := done
    obtain ⟨free, next⟩ := run_unless_eq_ok next
    simp only [run_bind_eq_ok, run_modify_eq_ok, run_pure_eq_ok] at next
    obtain ⟨_, _, rfl, rfl, rfl⟩ := next
    exact .entry location body (by simpa using free)
  | cflags name requested =>
    obtain ⟨_, _, ⟨rfl, rfl⟩, next⟩ := done
    obtain ⟨free, next⟩ := run_unless_eq_ok next
    simp only [run_bind_eq_ok, run_modify_eq_ok, run_pure_eq_ok, run_lift_eq_ok] at next
    obtain ⟨chosen, _, ⟨known, rfl⟩, _, _, rfl, rfl, rfl⟩ := next
    exact .cflags (by simpa using free) known
  | useReg path group =>
    obtain ⟨rfl, rfl⟩ := done
    exact .useReg path group
  | tune path flags =>
    obtain ⟨rfl, rfl⟩ := done
    exact .tune path flags

end Resolver

/-- The tables of a description are those of its items, completed by the waiting bodies. -/
theorem Ast.Description.tables_eq_ok {after : Tables} {result : Unit}
    (done : description.tables.run .empty = .ok (result, after)) :
    ∃ waiting between, (Resolver.declareAll description.items).run .empty =
        .ok (waiting, between) ∧
      (waiting.forM Resolver.Pending.resolve).run between = .ok (result, after) := by
  simp only [Ast.Description.tables, run_bind_eq_ok, run_get_eq_ok] at done
  obtain ⟨waiting, between, declared, _, _, ⟨rfl, rfl⟩, next⟩ := done
  exact ⟨waiting, between, declared, (Resolver.run_unless_eq_ok next).2⟩

/-- A model is what the tables stand for once all hints are attached. -/
theorem Ast.Description.resolve_eq_ok {resolved : Resolved}
    (done : description.resolve = .ok resolved) :
    ∃ tables hinted warnings, description.tables.run .empty = .ok ((), tables) ∧
      (HintResolver.attachAll description.items).run (tables, []) = .ok ((), hinted, warnings) ∧
      hinted.toModel? = some resolved.model := by
  simp only [Ast.Description.resolve] at done
  obtain ⟨⟨_, tables⟩, declared, next⟩ := bind_eq_ok.mp done
  obtain ⟨⟨_, hinted, warnings⟩, attached, last⟩ := bind_eq_ok.mp next
  -- Without an entry point there is no model.
  split at last
  case h_1 model complete =>
    cases pure_eq_ok.mp last
    exact ⟨tables, hinted, warnings, declared, attached, complete⟩
  case h_2 => exact absurd last throw_ne_ok

end Coro
