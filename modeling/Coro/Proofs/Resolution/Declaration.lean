import Coro.Proofs.Model.Fitting
import Coro.Proofs.Resolution.Stages

/-!
What single declarations add to the tables.

Every entity takes the next place of its table, and no later step moves it.
-/

namespace Coro

/-- Changing an entry keeps what is the same of the old entry and the new one. -/
theorem map_modify_eq {α β : Type} {view : α → β} {change : α → α}
    (entries : List α) (i : Nat) (same : ∀ entry, view (change entry) = view entry) :
    (entries.modify i change).map view = entries.map view := by
  apply List.ext_getElem?
  intro place
  simp only [List.getElem?_map, List.getElem?_modify]
  cases entries[place]? with
  | none => rfl
  | some entry => by_cases chosen : i = place <;> simp [chosen, same]

/-- An entry of a list with one changed is an old one or the changed one. -/
theorem getElem?_modify_cases {α : Type} {entries : List α} {change : α → α} {i place : Nat}
    {entry known : α} (there : entries[i]? = some known)
    (found : (entries.modify i change)[place]? = some entry) :
    entries[place]? = some entry ∨ i = place ∧ change known = entry := by
  rw [List.getElem?_modify] at found
  obtain ⟨old, listed, changed⟩ := Option.map_eq_some_iff.mp found
  by_cases chosen : i = place
  · subst chosen
    cases there.symm.trans listed
    exact .inr ⟨rfl, by simpa using changed⟩
  · exact .inl (by simpa [chosen, ← changed] using listed)

/-- What can be named anywhere can be named in every body. -/
theorem Shapes.Sees.anywhere {shapes : Shapes} {count : Nat} {entity : Entity}
    (seen : shapes.Sees none count entity) (caller : Option CoroutineId) :
    shapes.Sees caller count entity := by
  cases entity with
  | coroutine id =>
    obtain ⟨called, found, visible⟩ := seen
    refine ⟨called, found, fun parent inside => ?_⟩
    -- Only threads can be named from nowhere, and these have no parent.
    obtain ⟨self, calling, impossible, -⟩ := visible parent inside
    exact absurd impossible (by simp)
  | static id => exact seen
  | localVar id => exact seen
  | external id => exact seen
  | function id => exact seen
  | hook id => exact seen

/-- What a coroutine can name, its subroutines can name too. -/
theorem Shapes.Sees.inner {shapes : Shapes} {id inner : CoroutineId} {entity : Entity}
    {shape innerShape : CoroutineShape} (here : shapes.coroutines[id]? = some shape)
    (there : shapes.coroutines[inner]? = some innerShape)
    (inside : innerShape.parent = some id) (thread : innerShape.thread = shape.thread)
    (seen : shapes.Sees (some id) 0 entity) : shapes.Sees (some inner) 0 entity := by
  cases entity with
  | coroutine sought =>
    obtain ⟨called, found, visible⟩ := seen
    refine ⟨called, found, fun parent around => ?_⟩
    obtain ⟨self, calling, known, found, same, within⟩ := visible parent around
    cases known
    have calling_eq : calling = shape := Option.some.inj (found.symm.trans here)
    -- One more step outwards leads from the subroutine to its parent.
    exact ⟨inner, innerShape, rfl, there, by rw [same, calling_eq, thread],
      .inner there inside within⟩
  | static id => exact seen
  | localVar id => exact seen
  | external id => exact seen
  | function id => exact seen
  | hook id => exact seen

/-- The body that a coroutine is declared in: its parent's, or the top level. -/
def Owner.ofParent : Option CoroutineId → Owner
  | none => .global
  | some id => .coroutine id

namespace Resolver

variable {before after : Tables}

theorem addStatic_eq {storage : StaticVariable} {id : StaticId}
    (done : (addStatic storage).run before = .ok (id, after)) :
    id = before.statics.length ∧
      after = { before with statics := before.statics ++ [storage] } := by
  simp only [addStatic, StateT.run_modifyGet, pure_eq_ok, Prod.mk.injEq] at done
  exact ⟨done.1.symm, done.2.symm⟩

/-- A value that a variable starts with was made to fit. -/
theorem staticInitial_fits {type : IntType} {length : Option Nat} {written : Option Ast.Expr}
    {initial : Option Int64} (done : staticInitial type length written = .ok initial) :
    ∀ value, initial = some value → type.Fits value := by
  cases written with
  | none =>
    cases pure_eq_ok.mp done
    simp
  | some expr =>
    simp only [staticInitial] at done
    split at done
    · exact absurd done throw_bind_ne_ok
    · simp only [bind_eq_ok, pure_eq_ok] at done
      obtain ⟨constant, -, rfl⟩ := done
      rintro value ⟨rfl⟩
      exact type.fits_wrap constant

/-- The static variable of a parameter. -/
def parameterStatic (id : CoroutineId) (path : Path) (parameter : Ast.Parameter) :
    StaticVariable :=
  ⟨path.member parameter.name.value, .coroutine id, parameter.type.value, none, false, none,
    none, parameter.name.location⟩

/-- Parameters become static variables at the next places, in the same order. -/
theorem parameters_eq {id : CoroutineId} {path : Path} (written : List Ast.Parameter)
    {ids : List StaticId} (done : (parameters id path written).run before = .ok (ids, after)) :
    ids = List.range' before.statics.length written.length ∧
      after = { before with
        statics := before.statics ++ written.map (parameterStatic id path) } := by
  induction written generalizing before ids with
  | nil =>
    obtain ⟨rfl, rfl⟩ := run_pure_eq_ok.mp done
    simp
  | cons parameter rest ih =>
    simp only [parameters, run_bind_eq_ok, run_pure_eq_ok] at done
    obtain ⟨first, between, added, others, _, more, rfl, rfl⟩ := done
    obtain ⟨rfl, rfl⟩ := addStatic_eq added
    obtain ⟨rfl, rfl⟩ := ih more
    simp [parameterStatic, List.range'_succ]

/-- A declared coroutine, whose parameters take the next places of static variables. -/
def declared (tables : Tables) (path : Path) (parent thread : Option CoroutineId)
    (written : Ast.Coroutine) : Coroutine :=
  ⟨path, parent, thread.getD tables.coroutines.length,
    List.range' tables.statics.length written.parameters.length, [], none, .none, [],
    written.name.location⟩

/-- Declaring a coroutine adds it and its parameters, and nothing else. -/
theorem declareCoroutine_eq {path : Path} {parent thread : Option CoroutineId}
    {written : Ast.Coroutine} {id : CoroutineId}
    (done : (declareCoroutine path parent thread written).run before = .ok (id, after)) :
    id = before.coroutines.length ∧ after = { before with
      statics := before.statics ++
        written.parameters.map (parameterStatic before.coroutines.length path)
      coroutines := before.coroutines ++ [declared before path parent thread written] } := by
  simp only [declareCoroutine, run_bind_eq_ok, run_get_eq_ok, run_modify_eq_ok,
    run_pure_eq_ok] at done
  obtain ⟨_, _, ⟨rfl, rfl⟩, ids, between, listed, _, _, rfl, rfl, rfl⟩ := done
  obtain ⟨rfl, rfl⟩ := parameters_eq written.parameters listed
  exact ⟨rfl, rfl⟩

/-- Whose body waits. -/
def Pending.owner : Pending → Owner
  | .thread id _ => .coroutine id
  | .function id _ => .function id
  | .hook id _ _ => .hook id
  | .entry _ _ => .entry

end Resolver

end Coro
