import Coro.Resolution.Body
import Mathlib.Data.List.Forall2

/-!
What a body looks up.

A body mentions names in the order of its text: it uses them, or it declares local variables under
them. Resolving it keeps this order. Every name that is used is looked up, and every local variable
joins the scope for what comes behind it. So whatever is true of single mentions is true of bodies.
-/

namespace Coro

/-! ## Mentions -/

/-- Something that a body uses, or a local variable that it declares. -/
inductive Mention (α β : Type) where
  | use (used : α)
  | declare (declared : β)
deriving Repr, DecidableEq

/-- The local variables that are declared by some mentions. -/
def Mention.declared {α β : Type} : List (Mention α β) → List β
  | [] => []
  | .use _ :: rest => declared rest
  | .declare name :: rest => name :: declared rest

namespace Ast

/-- A mention of a name as it is written. -/
abbrev Mention := Coro.Mention (Located String) (Located String)

mutual

/-- The names in an expression, in the order of the text. -/
def Expr.names : Expr → List (Located String)
  | .int _ _ => []
  | .char _ _ => []
  | .name written => [written]
  | .element written index _ => written :: index.names
  | .call function args _ => function :: Expr.namesAll args
  | .unary _ operand _ => operand.names
  | .binary _ left right _ => left.names ++ right.names

/-- The names in expressions. -/
def Expr.namesAll : List Expr → List (Located String)
  | [] => []
  | first :: rest => first.names ++ Expr.namesAll rest

end

/-- Expressions that may be missing have no names then. -/
def Expr.namesOpt (written : Option Expr) : List (Located String) :=
  written.elim [] Expr.names

mutual

/-- The names in a statement, in the order of the text. -/
def Statement.mentions : Statement → List Mention
  -- A variable is declared only behind the value that it starts with.
  | .letVar _ name _ value => (Expr.namesOpt value).map .use ++ [.declare name]
  | .yield _ => []
  | .waitUntil condition _ => condition.names.map .use
  | .call subroutine args => (subroutine :: Expr.namesAll args).map .use
  | .ifThen condition taken otherwise =>
    condition.names.map .use ++ Statement.mentionsAll taken ++ Statement.mentionsAll otherwise
  | .whileLoop condition body => condition.names.map .use ++ Statement.mentionsAll body
  | .loop body => Statement.mentionsAll body
  | .breakLoop _ => []
  | .continueLoop _ => []
  | .returnFrom value _ => (Expr.namesOpt value).map .use
  | .assign target _ value =>
    (target.name :: (Expr.namesOpt target.index ++ value.names)).map .use
  | .eval expr => expr.names.map .use

/-- The names in statements; a block inside a body adds its own to those of the body. -/
def Statement.mentionsAll : List Statement → List Mention
  | [] => []
  | first :: rest => first.mentions ++ Statement.mentionsAll rest

end

end Ast

/-- The variable as an entity. -/
def Var.entity : Var → Entity
  | .static id => .static id
  | .localVar id => .localVar id
  | .external id => .external id

/-- The function as an entity. -/
def Callee.entity : Callee → Entity
  | .function id => .function id
  | .external id => .external id

mutual

/-- The entities that an expression refers to, in order. -/
def Expr.entities : Expr → List Entity
  | .const _ => []
  | .read var => [var.entity]
  | .element var index => var.entity :: index.entities
  | .call callee args => callee.entity :: Expr.entitiesAll args
  | .unary _ operand => operand.entities
  | .binary _ left right => left.entities ++ right.entities

/-- The entities that expressions refer to. -/
def Expr.entitiesAll : List Expr → List Entity
  | [] => []
  | first :: rest => first.entities ++ Expr.entitiesAll rest

end

/-- An expression that may be missing refers to nothing then. -/
def Expr.entitiesOpt (expr : Option Expr) : List Entity :=
  expr.elim [] Expr.entities

mutual

/-- What a statement uses and declares, in order. -/
def Stmt.mentions : Stmt → List (Mention Entity LocalId)
  | .letVar id value => (Expr.entitiesOpt value).map .use ++ [.declare id]
  | .yield _ => []
  | .waitUntil condition _ _ => condition.entities.map .use
  | .call callee args _ => (.coroutine callee :: Expr.entitiesAll args).map .use
  | .ifThen condition taken otherwise =>
    condition.entities.map .use ++ Stmt.mentionsAll taken ++ Stmt.mentionsAll otherwise
  | .whileLoop condition body => condition.entities.map .use ++ Stmt.mentionsAll body
  | .loop body => Stmt.mentionsAll body
  | .breakLoop => []
  | .continueLoop => []
  | .returnFrom value => (Expr.entitiesOpt value).map .use
  | .assign place _ value =>
    (place.var.entity :: (Expr.entitiesOpt place.index ++ value.entities)).map .use
  | .eval expr => expr.entities.map .use

/-- What statements use and declare. -/
def Stmt.mentionsAll : List Stmt → List (Mention Entity LocalId)
  | [] => []
  | first :: rest => first.mentions ++ Stmt.mentionsAll rest

end

/-- A local variable under the name that is written for it. -/
def Local.written (known : Local) : Located String :=
  ⟨known.name, known.location⟩

/-! ## Looking up names -/

namespace Surroundings

variable {made : List (Mention Entity LocalId)}

/-- Mentions are looked up one by one; a local variable is known behind its declaration. -/
inductive Looks (around : Surroundings) :
    BodyNames → List Ast.Mention → List (Mention Entity LocalId) → BodyNames → Prop where
  | nil (names : BodyNames) : Looks around names [] [] names
  | use {names later : BodyNames} {name : Located String} {entity : Entity}
      {written : List Ast.Mention} {made : List (Mention Entity LocalId)}
      (found : around.entity names name = .ok entity)
      (behind : Looks around names written made later) :
      Looks around names (.use name :: written) (.use entity :: made) later
  | declare {names later : BodyNames} {name : Located String} {scope : Scope}
      {written : List Ast.Mention} {made : List (Mention Entity LocalId)} (known : Local)
      (same : known.written = name) (bare : known.hint = none)
      (defined : names.scope.define name (.localVar names.locals.length) = .ok scope)
      (behind : Looks around ⟨scope, names.locals ++ [known]⟩ written made later) :
      Looks around names (.declare name :: written) (.declare names.locals.length :: made) later

variable {around : Surroundings} {names middle later : BodyNames}

theorem Looks.append {written others : List Ast.Mention} {made more : List (Mention Entity LocalId)}
    (one : around.Looks names written made middle) (other : around.Looks middle others more later) :
    around.Looks names (written ++ others) (made ++ more) later := by
  induction one with
  | nil names => exact other
  | use found _ ih => exact .use found (ih other)
  | declare known same bare defined _ ih => exact .declare known same bare defined (ih other)

/-- Local variables are declared without wishes. -/
theorem Looks.bare {written : List Ast.Mention} (looks : around.Looks names written made later)
    (before : ∀ known ∈ names.locals, known.hint = none) :
    ∀ known ∈ later.locals, known.hint = none := by
  induction looks with
  | nil => exact before
  | use _ _ ih => exact ih before
  | declare known same bare _ _ ih =>
    exact ih (List.forall_mem_append.mpr ⟨before, by simpa using bare⟩)

/-- Behind the local variables of before stand those that are declared. -/
theorem Looks.locals {written : List Ast.Mention} (looks : around.Looks names written made later) :
    later.locals.map Local.written = names.locals.map Local.written ++ Mention.declared written := by
  induction looks with
  | nil => simp [Mention.declared]
  | use _ _ ih => exact ih
  | declare known same _ _ _ ih => simpa [Mention.declared, same] using ih

/-- Names that are used stand for entities. -/
abbrev FindsAll (around : Surroundings) (names : BodyNames) :
    List (Located String) → List Entity → Prop :=
  List.Forall₂ fun name entity => around.entity names name = .ok entity

theorem Looks.uses {used : List (Located String)} {entities : List Entity}
    (found : around.FindsAll names used entities) :
    around.Looks names (used.map .use) (entities.map .use) names := by
  induction found with
  | nil => exact .nil names
  | cons here _ ih => exact .use here ih

end Surroundings

end Coro
