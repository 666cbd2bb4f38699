import Coro.Model
import Coro.Resolution.Error

/-! Names and what they stand for. -/

namespace Coro

/-- What a declared name stands for. -/
inductive Entity where
  | static (id : StaticId)
  | localVar (id : LocalId)
  | external (id : ExternalId)
  | function (id : FunctionId)
  | coroutine (id : CoroutineId)
  | hook (id : HookId)
deriving Repr, DecidableEq, Inhabited

/-- Names that the generated file uses for itself. -/
def reservedNames : List String :=
  ["auto", "break", "case", "char", "const", "continue", "default", "do", "double", "else",
   "enum", "extern", "float", "for", "goto", "if", "inline", "int", "long", "register",
   "restrict", "return", "short", "signed", "sizeof", "static", "struct", "switch", "typedef",
   "union", "unsigned", "void", "volatile", "while", "main", "timebase_ticks", "uint8_t",
   "uint16_t", "uint32_t", "int8_t", "int16_t", "int32_t"]

/-- Two underscores stand side by side. -/
def hasDoubleUnderscore : List Char → Bool
  | [] => false
  | '_' :: '_' :: _ => true
  | _ :: rest => hasDoubleUnderscore rest

/--
Names that no description may declare.

Symbols join the names of a path by two underscores. Without such a pair inside a name, and without
an underscore at its ends, the names can be read off the symbol again.
-/
def isReserved (name : String) : Bool :=
  hasDoubleUnderscore name.toList ||
  name.toList.head? == some '_' ||
  name.toList.getLast? == some '_' ||
  "hilos_".toList.isPrefixOf name.toList ||
  reservedNames.contains name

/-- The names of one body, or of the top level. -/
abbrev Scope := List (String × Entity)

namespace Scope

/-- What a name stands for in this scope alone. -/
def find? (scope : Scope) (name : String) : Option Entity :=
  List.lookup name scope

/-- Adds a name, which must be neither reserved nor taken. -/
def define (scope : Scope) (name : Located String) (entity : Entity) :
    Except (Located ResolutionError) Scope :=
  -- A reserved name is refused as such even where it is taken.
  if isReserved name.value then throw ⟨.reservedName name.value, name.location⟩
  else if (scope.find? name.value).isSome then throw ⟨.duplicateName name.value, name.location⟩
  else return (name.value, entity) :: scope

/-- A new name stands for its entity, and every other name for what it stood for before. -/
theorem find?_define {scope extended : Scope} {name : Located String} {entity : Entity}
    (defined : scope.define name entity = .ok extended) (sought : String) :
    extended.find? sought = if sought = name.value then some entity else scope.find? sought := by
  -- Only a name that is neither reserved nor taken leads to a scope.
  simp only [define] at defined
  split at defined
  · simp [throw, throwThe, MonadExceptOf.throw] at defined
  · split at defined
    · simp [throw, throwThe, MonadExceptOf.throw] at defined
    · cases defined
      by_cases same : sought = name.value
      · simp [find?, same]
      · simp [find?, List.lookup_cons, beq_false_of_ne same, same]

/-- Adds names one after the other. -/
def defineAll (scope : Scope) :
    List (Located String × Entity) → Except (Located ResolutionError) Scope
  | [] => return scope
  | (name, entity) :: rest => do
    let scope ← scope.define name entity
    scope.defineAll rest

end Scope

/-- What a name stands for: the innermost scope that has it decides. -/
def lookup (scopes : List Scope) (name : Located String) :
    Except (Located ResolutionError) Entity :=
  match scopes.findSome? (Scope.find? · name.value) with
  | some entity => return entity
  | none => throw ⟨.unknownReference name.value, name.location⟩

end Coro
