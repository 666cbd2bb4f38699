import Coro.External
import Coro.Interval
import Coro.Model.Body
import Coro.Model.Hint
import Coro.Path

/-! Models: tables of all declared entities, with bodies that refer to them by their places. -/

namespace Coro

/-- Whose body a static variable was declared in. -/
inductive Owner where
  | global
  | coroutine (id : CoroutineId)
  | function (id : FunctionId)
  | hook (id : HookId)
  | entry
deriving Repr, DecidableEq, Inhabited

/-- An entity that the surrounding program provides. -/
structure External where
  name : String
  kind : ExternalKind
  location : Location
deriving Repr, Inhabited

/-- A variable that keeps its value for the whole run. -/
structure StaticVariable where
  path : Path
  owner : Owner
  type : IntType
  /-- The number of elements of an array. -/
  length : Option Nat
  volatile : Bool
  /-- The value before the run, which fits the type. -/
  initial : Option Int64
  hint : Option RegisterHint
  location : Location
deriving Repr, Inhabited

/-- The number of values that a variable holds. -/
def StaticVariable.size (storage : StaticVariable) : Nat :=
  storage.length.getD 1

/-- A variable of one body, or a parameter of a function. -/
structure Local where
  name : String
  type : IntType
  length : Option Nat
  hint : Option RegisterHint
  location : Location
deriving Repr, Inhabited

/-- The number of values that a variable holds. -/
def Local.size (storage : Local) : Nat :=
  storage.length.getD 1

/-- A thread or a subroutine: code that can be suspended and resumed. -/
structure Coroutine where
  path : Path
  /-- The coroutine that a subroutine is declared in; threads have none. -/
  parent : Option CoroutineId
  /-- The thread that a subroutine works for; a thread works for itself. -/
  thread : CoroutineId
  parameters : List StaticId
  locals : List Local
  stateHint : Option RegisterHint
  tuning : Tuning
  body : List Stmt
  location : Location
deriving Repr, Inhabited

/-- Threads are declared in no other coroutine. -/
def Coroutine.isThread (coroutine : Coroutine) : Bool :=
  coroutine.parent.isNone

/-- A function, which never suspends. -/
structure Function where
  name : String
  /-- The number of parameters, which are the first local variables. -/
  arity : Nat
  returns : Option IntType
  locals : List Local
  tuning : Tuning
  body : List Stmt
  location : Location
deriving Repr, Inhabited

/-- Code that runs at start, on every pass, or periodically. -/
structure Hook where
  name : String
  kind : HookKind
  locals : List Local
  tuning : Tuning
  body : List Stmt
  location : Location
deriving Repr, Inhabited

/-- The code that runs once, after the initialization hooks. -/
structure Entry where
  locals : List Local
  body : List Stmt
  location : Location
deriving Repr, Inhabited

/-- The wish for a file of compiler flags. -/
structure FlagsRequest where
  name : String
  profile : Profile
deriving Repr, Inhabited

/-- All that a description declares, each table in the order of creation. -/
structure Model where
  headers : List String
  externals : List External
  statics : List StaticVariable
  coroutines : List Coroutine
  functions : List Function
  hooks : List Hook
  entry : Entry
  flags : Option FlagsRequest
deriving Repr, Inhabited

namespace Model

/-- The threads, in the order of declaration. -/
def threads (model : Model) : List CoroutineId :=
  (model.coroutines.zipIdx.filter fun (coroutine, _) => coroutine.isThread).map Prod.snd

/-- The hooks that run on one occasion, in the order of declaration. -/
def hooksOn (model : Model) (kind : HookKind) : List HookId :=
  (model.hooks.zipIdx.filter fun (hook, _) => hook.kind = kind).map Prod.snd

/-- The first coroutine with a given dotted path. -/
def findCoroutine? (model : Model) (path : String) : Option CoroutineId :=
  model.coroutines.findIdx? fun coroutine => coroutine.path.dotted = path

/-- The first static variable with a given dotted path. -/
def findStatic? (model : Model) (path : String) : Option StaticId :=
  model.statics.findIdx? fun storage => storage.path.dotted = path

end Model

end Coro
