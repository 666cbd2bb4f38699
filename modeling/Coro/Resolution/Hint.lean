import Coro.Resolution.Declaration
import Coro.Warning

/-! Attaching hints to the entities that they name. -/

namespace Coro

/-- Steps that attach hints and collect warnings. -/
abbrev HintResolver :=
  StateT (Tables × List (Located Warning)) (Except (Located ResolutionError))

/-- The body that an entity has, if it declares names of its own. -/
def Entity.owner? : Entity → Option Owner
  | .coroutine id => some (.coroutine id)
  | .function id => some (.function id)
  | .hook id => some (.hook id)
  | _ => none

namespace Tables

/-- What a name stands for inside the body of an entity. -/
def member? (tables : Tables) (owner : Owner) (name : String) : Option Entity :=
  (List.lookup owner tables.members).bind (Scope.find? · name)

/--
Follows names from an entity inwards, together with the owner of the entity found.

A last name `state` that a coroutine does not declare stands for the coroutine itself.
-/
def follow (tables : Tables) (owner : Owner) (entity : Entity) :
    List String → Option (Owner × Entity)
  | [] => some (owner, entity)
  | name :: rest => do
    -- A name that the body declares hides the state of the coroutine.
    let inner ← entity.owner?
    match tables.member? inner name with
    | some found => tables.follow inner found rest
    | none =>
      match entity with
      | .coroutine _ => if name = "state" ∧ rest = [] then some (inner, entity) else none
      | _ => none

/-- The entity at the end of a path, with its owner. -/
def hinted (tables : Tables) (path : Located Path) :
    Except (Located ResolutionError) (Owner × Entity) :=
  let found := match path.value.names with
    | [] => none
    | first :: rest => do tables.follow .global (← tables.globals.find? first) rest
  match found with
  | some entity => return entity
  | none => throw ⟨.unknownReference path.value.dotted, path.location⟩

end Tables

/-- The number in the name of a single register. -/
def registerNumber? (name : String) : Option Nat :=
  match name.toList with
  | first :: digits =>
    -- Leading zeros are no matter, but the value has to fit into a byte.
    let value := digits.foldl (fun value digit => 10 * value + (digit.toNat - '0'.toNat)) 0
    if (first = 'r' ∨ first = 'R') ∧ digits ≠ [] ∧ digits.all Char.isDigit ∧ value ≤ 255 then
      some value
    else none
  | [] => none

/-- The class of registers that a name stands for. -/
def registerClass : Option (Located String) → Except (Located ResolutionError) RegisterClass
  | none => return .any
  | some name =>
    match registerNumber? name.value with
    | some number => return .exact number
    | none =>
      if sameWord name.value "low" then return .low
      else if sameWord name.value "high" then return .high
      else if sameWord name.value "any" then return .any
      else throw ⟨.unknownRegisterClass name.value, name.location⟩

/-- The wish that a name stands for. -/
def tuningFlag (name : Located String) : Except (Located ResolutionError) Tuning :=
  if sameWord name.value "pure" then return ⟨true, false, false⟩
  else if sameWord name.value "no_inline" then return ⟨false, true, false⟩
  else if sameWord name.value "always_inline" then return ⟨false, false, true⟩
  else throw ⟨.unknownTuning name.value, name.location⟩

/-- The wishes of all names together. -/
def tuningFlags : List (Located String) → Except (Located ResolutionError) Tuning
  | [] => return .none
  | name :: rest => do
    let first ← tuningFlag name
    return first.merge (← tuningFlags rest)

/--
Wishes made consistent, with the warnings about those that are dropped.

Not inlining wins over inlining, and only a function that returns a value can be pure.
-/
def Tuning.settle (tuning : Tuning) (pureAllowed : Bool) (path : String) :
    Tuning × List Warning :=
  -- Each wish that is dropped has its own warning, the clash first.
  let clash := tuning.noInline && tuning.alwaysInline
  let idle := tuning.isPure && !pureAllowed
  ({ tuning with
      alwaysInline := tuning.alwaysInline && !clash
      isPure := tuning.isPure && !idle },
    (if clash then [.conflictingTuning path] else []) ++
    (if idle then [.ignoredTuning path] else []))

namespace HintResolver

/-- Attaches the wish for a register to a variable or to the state of a coroutine. -/
def useReg (path : Located Path) (group : Option (Located String)) : HintResolver Unit := do
  let (tables, _) ← get
  let (owner, entity) ← tables.hinted path
  let hint : RegisterHint := ⟨← registerClass group, path.location⟩
  let change (update : Tables → Tables) : HintResolver Unit :=
    modify fun (tables, warnings) => (update tables, warnings)
  match owner, entity with
  | _, .static id => change fun tables => { tables with
      statics := tables.statics.modify id fun known => { known with hint := some hint } }
  -- Local variables of coroutines become static ones, so they can be bound too.
  | .coroutine id, .localVar place => change fun tables => { tables with
      coroutines := tables.coroutines.modify id fun known => { known with
        locals := known.locals.modify place fun known => { known with hint := some hint } } }
  | _, .coroutine id => change fun tables => { tables with
      coroutines := tables.coroutines.modify id fun known =>
        { known with stateHint := some hint } }
  | _, _ => throw ⟨.badHintTarget path.value.dotted, path.location⟩

/-- Adds wishes on the compilation of an entity to those it has. -/
def tune (path : Located Path) (flags : List (Located String)) : HintResolver Unit := do
  let (tables, _) ← get
  let (_, entity) ← tables.hinted path
  let requested ← tuningFlags flags
  -- New wishes join those of earlier hints before clashes are settled.
  let settled (known : Tuning) (pureAllowed : Bool) : Tuning × List Warning :=
    (known.merge requested).settle pureAllowed path.value.dotted
  let finish (warnings : List Warning) (update : Tables → Tables) : HintResolver Unit :=
    modify fun (tables, known) =>
      (update tables, known ++ warnings.map fun warning => ⟨warning, path.location⟩)
  match entity with
  | .function id =>
    let known := tables.functions.getD id default
    let (tuning, warnings) := settled known.tuning known.returns.isSome
    finish warnings fun tables => { tables with
      functions := tables.functions.modify id fun known => { known with tuning } }
  | .coroutine id =>
    let (tuning, warnings) := settled (tables.coroutines.getD id default).tuning false
    finish warnings fun tables => { tables with
      coroutines := tables.coroutines.modify id fun known => { known with tuning } }
  | .hook id =>
    let (tuning, warnings) := settled (tables.hooks.getD id default).tuning false
    finish warnings fun tables => { tables with
      hooks := tables.hooks.modify id fun known => { known with tuning } }
  | _ => throw ⟨.badHintTarget path.value.dotted, path.location⟩

/-- Attaches the hint that an item gives, if it gives one. -/
def attach : Ast.Item → HintResolver Unit
  | .useReg path group => useReg path group
  | .tune path flags => tune path flags
  | _ => return ()

/-- Attaches all hints in the order of the text. -/
def attachAll : List Ast.Item → HintResolver Unit
  | [] => return ()
  | item :: rest => do
    attach item
    attachAll rest

end HintResolver

end Coro
