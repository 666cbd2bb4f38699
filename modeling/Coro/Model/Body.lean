import Coro.Likelihood
import Coro.Location
import Coro.Operator

/-! Bodies whose names stand for entities of a model. -/

namespace Coro

/-- A place among the static variables of a model. -/
abbrev StaticId := Nat

/-- A place among the coroutines of a model. -/
abbrev CoroutineId := Nat

/-- A place among the functions of a model. -/
abbrev FunctionId := Nat

/-- A place among the hooks of a model. -/
abbrev HookId := Nat

/-- A place among the external entities of a model. -/
abbrev ExternalId := Nat

/-- A place among the local variables of one body. -/
abbrev LocalId := Nat

/-- What a variable name stands for. -/
inductive Var where
  | static (id : StaticId)
  | localVar (id : LocalId)
  | external (id : ExternalId)
deriving Repr, DecidableEq, Inhabited

/-- What the name of a called function stands for. -/
inductive Callee where
  | function (id : FunctionId)
  | external (id : ExternalId)
deriving Repr, DecidableEq, Inhabited

/-- Expressions. -/
inductive Expr where
  | const (value : Int64)
  | read (var : Var)
  | element (var : Var) (index : Expr)
  | call (callee : Callee) (args : List Expr)
  | unary (op : UnaryOp) (operand : Expr)
  | binary (op : BinaryOp) (left right : Expr)
deriving Repr, Inhabited

/-- What is assigned to: a variable, or one element of an array. -/
structure Place where
  var : Var
  index : Option Expr
deriving Repr, Inhabited

/-- Statements. -/
inductive Stmt where
  | letVar (id : LocalId) (value : Option Expr)
  | yield (location : Location)
  | waitUntil (condition : Expr) (hint : Option Likelihood) (location : Location)
  | call (callee : CoroutineId) (args : List Expr) (location : Location)
  | ifThen (condition : Expr) (taken otherwise : List Stmt)
  | whileLoop (condition : Expr) (body : List Stmt)
  | loop (body : List Stmt)
  | breakLoop
  | continueLoop
  | returnFrom (value : Option Expr)
  | assign (place : Place) (op : Option BinaryOp) (value : Expr)
  | eval (expr : Expr)
deriving Repr, Inhabited

end Coro
