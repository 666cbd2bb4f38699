/-! Names of entities together with the declarations they stand in. -/

namespace Coro

/-- The names that lead from the top level to an entity, its own name last. -/
structure Path where
  names : List String
deriving Repr, DecidableEq, Inhabited

namespace Path

/-- The path of an entity on the top level. -/
def ofName (name : String) : Path := ⟨[name]⟩

/-- The path of an entity declared inside another one. -/
def member (path : Path) (name : String) : Path := ⟨path.names ++ [name]⟩

/-- The name of the entity itself. -/
def name (path : Path) : String := path.names.getLastD ""

/-- The path as a description writes it. -/
def dotted (path : Path) : String := ".".intercalate path.names

/-- The path as one identifier of the generated file. -/
def symbol (path : Path) : String := "__".intercalate path.names

end Path

end Coro
