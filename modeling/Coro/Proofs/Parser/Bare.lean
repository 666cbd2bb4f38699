import Coro.Ast

/-!
Syntax trees without the places where their parts were written.

Two trees are the same up to places exactly if their bare forms are equal.
-/

namespace Coro

/-- A value at no place in particular. -/
def Located.bare {α : Type} (located : Located α) : Located α :=
  ⟨located.value, default⟩

/-- Only the place is forgotten. -/
@[simp] theorem Located.bare_mk {α : Type} (value : α) (location : Location) :
    Located.bare ⟨value, location⟩ = ⟨value, default⟩ := rfl

namespace Ast

/-! ## Expressions and statements -/

mutual

/-- An expression without places. -/
def Expr.bare : Expr → Expr
  | .int value _ => .int value default
  | .char byte _ => .char byte default
  | .name written => .name written.bare
  | .element written index _ => .element written.bare index.bare default
  | .call function args _ => .call function.bare (bareAll args) default
  | .unary op operand _ => .unary op operand.bare default
  | .binary op left right _ => .binary op left.bare right.bare default

/-- Expressions without places. -/
def Expr.bareAll : List Expr → List Expr
  | [] => []
  | expr :: others => expr.bare :: bareAll others

end

/-- Each expression of a list is made bare. -/
@[simp] theorem Expr.bareAll_eq (exprs : List Expr) : bareAll exprs = exprs.map bare := by
  induction exprs with
  | nil => rfl
  | cons expr others ih => rw [bareAll, ih, List.map_cons]

/-- Something that is assigned to, without places. -/
def Target.bare (target : Target) : Target :=
  ⟨target.name.bare, target.index.map Expr.bare, default⟩

mutual

/-- A statement without places. -/
def Statement.bare : Statement → Statement
  | .letVar type name length value =>
    .letVar type.bare name.bare (length.map Located.bare) (value.map Expr.bare)
  | .yield _ => .yield default
  | .waitUntil condition hint => .waitUntil condition.bare hint
  | .call subroutine args => .call subroutine.bare (args.map Expr.bare)
  | .ifThen condition taken otherwise =>
    .ifThen condition.bare (bareAll taken) (bareAll otherwise)
  | .whileLoop condition body => .whileLoop condition.bare (bareAll body)
  | .loop body => .loop (bareAll body)
  | .breakLoop _ => .breakLoop default
  | .continueLoop _ => .continueLoop default
  | .returnFrom value _ => .returnFrom (value.map Expr.bare) default
  | .assign target op value => .assign target.bare op value.bare
  | .eval expr => .eval expr.bare

/-- Statements without places. -/
def Statement.bareAll : List Statement → List Statement
  | [] => []
  | statement :: others => statement.bare :: bareAll others

end

/-- Each statement of a list is made bare. -/
@[simp] theorem Statement.bareAll_eq (statements : List Statement) :
    bareAll statements = statements.map bare := by
  induction statements with
  | nil => rfl
  | cons statement others ih => rw [bareAll, ih, List.map_cons]

/-! ## Declarations -/

/-- A static variable without places. -/
def StaticDecl.bare (decl : StaticDecl) : StaticDecl :=
  ⟨decl.type.bare, decl.name.bare, decl.volatile, decl.length.map Located.bare,
    decl.initial.map Expr.bare⟩

/-- A parameter without places. -/
def Parameter.bare (parameter : Parameter) : Parameter :=
  ⟨parameter.type.bare, parameter.name.bare⟩

mutual

/-- A coroutine without places. -/
def Coroutine.bare : Coroutine → Coroutine
  | ⟨name, parameters, statics, subroutines, statements⟩ =>
    ⟨name.bare, parameters.map Parameter.bare, statics.map StaticDecl.bare, bareAll subroutines,
      statements.map Statement.bare⟩

/-- Coroutines without places. -/
def Coroutine.bareAll : List Coroutine → List Coroutine
  | [] => []
  | coroutine :: others => coroutine.bare :: bareAll others

end

/-- Each coroutine of a list is made bare. -/
@[simp] theorem Coroutine.bareAll_eq (coroutines : List Coroutine) :
    bareAll coroutines = coroutines.map bare := by
  induction coroutines with
  | nil => rfl
  | cons coroutine others ih => rw [bareAll, ih, List.map_cons]

/-- A body without places. -/
def Body.bare (body : Body) : Body :=
  ⟨body.statics.map StaticDecl.bare, body.subroutines.map Coroutine.bare,
    body.statements.map Statement.bare⟩

/-- A static variable ahead of a body. -/
theorem Body.bare_static (decl : StaticDecl) (body : Body) :
    ({ body with statics := decl :: body.statics } : Body).bare =
      { body.bare with statics := decl.bare :: body.bare.statics } := rfl

/-- A subroutine ahead of a body. -/
theorem Body.bare_subroutine (written : Coroutine) (body : Body) :
    ({ body with subroutines := written :: body.subroutines } : Body).bare =
      { body.bare with subroutines := written.bare :: body.bare.subroutines } := rfl

/-- A statement ahead of a body. -/
theorem Body.bare_statement (written : Statement) (body : Body) :
    ({ body with statements := written :: body.statements } : Body).bare =
      { body.bare with statements := written.bare :: body.bare.statements } := rfl

/-- A coroutine is bare where its body is. -/
@[simp] theorem Coroutine.bare_ofBody (name : Located String) (parameters : List Parameter)
    (body : Body) : (Coroutine.ofBody name parameters body).bare =
      .ofBody name.bare (parameters.map Parameter.bare) body.bare := by
  simp only [ofBody, bare, bareAll_eq, Body.bare]

/-- A function without places. -/
def Function.bare (function : Function) : Function :=
  ⟨function.name.bare, function.parameters.map Parameter.bare, function.returns.map Located.bare,
    function.body.bare⟩

/-- An item without places. -/
def Item.bare : Item → Item
  | .header name => .header name.bare
  | .external name kind => .external name.bare kind
  | .static decl => .static decl.bare
  | .function written => .function written.bare
  | .thread written => .thread written.bare
  | .hook name kind body => .hook name.bare kind body.bare
  | .entry _ body => .entry default body.bare
  | .useReg path group => .useReg path.bare (group.map Located.bare)
  | .tune path flags => .tune path.bare (flags.map Located.bare)
  | .cflags name profile => .cflags name.bare (profile.map Located.bare)

/-- A description without places. -/
def Description.bare (description : Description) : Description :=
  ⟨description.items.map Item.bare, default⟩

end Ast

end Coro
