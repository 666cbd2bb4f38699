import Coro.Resolution.Hint

/-! From descriptions to models. -/

namespace Coro

/-- A model, with the warnings about its hints. -/
structure Resolved where
  model : Model
  warnings : List (Located Warning)
deriving Inhabited

/-- Declares every item, then resolves every body. -/
def Ast.Description.tables (description : Ast.Description) : Resolver Unit := do
  -- All names of the top level are known before any body is looked at.
  let pending ← Resolver.declareAll description.items
  if (← get).entry.isNone then throw ⟨.missingEntry, description.last⟩
  pending.forM Resolver.Pending.resolve

/-- The model that complete tables stand for. -/
def Tables.toModel? (tables : Tables) : Option Model :=
  tables.entry.map fun entry =>
    ⟨tables.headers, tables.externals, tables.statics, tables.coroutines, tables.functions,
      tables.hooks, entry, tables.flags⟩

/-- The model that a description declares, or its first fault. -/
def Ast.Description.resolve (description : Ast.Description) :
    Except (Located ResolutionError) Resolved := do
  -- Hints come last, when every name that they can mention is known.
  let (_, tables) ← description.tables.run .empty
  let (_, tables, warnings) ← (HintResolver.attachAll description.items).run (tables, [])
  match tables.toModel? with
  | some model => return ⟨model, warnings⟩
  | none => throw ⟨.missingEntry, description.last⟩

end Coro
