import Coro.External
import Coro.Interval
import Coro.Likelihood
import Coro.Location
import Coro.Operator
import Coro.Path

/-! Descriptions as they are written: declarations and bodies with unresolved names. -/

namespace Coro.Ast

/-- Expressions. -/
inductive Expr where
  | int (value : Nat) (location : Location)
  | char (byte : UInt8) (location : Location)
  | name (name : Located String)
  | element (name : Located String) (index : Expr) (location : Location)
  | call (function : Located String) (args : List Expr) (location : Location)
  | unary (op : UnaryOp) (operand : Expr) (location : Location)
  | binary (op : BinaryOp) (left right : Expr) (location : Location)
deriving Repr, Inhabited

/-- Where an expression was written. -/
def Expr.location : Expr → Location
  | .int _ location => location
  | .char _ location => location
  | .name written => written.location
  | .element _ _ location => location
  | .call _ _ location => location
  | .unary _ _ location => location
  | .binary _ _ _ location => location

/-- What is assigned to: a variable, or one element of an array. -/
structure Target where
  name : Located String
  index : Option Expr
  location : Location
deriving Repr, Inhabited

/-- Statements. -/
inductive Statement where
  | letVar (type : Located IntType) (name : Located String) (length : Option (Located Nat))
      (value : Option Expr)
  | yield (location : Location)
  | waitUntil (condition : Expr) (hint : Option Likelihood)
  | call (subroutine : Located String) (args : List Expr)
  | ifThen (condition : Expr) (taken otherwise : List Statement)
  | whileLoop (condition : Expr) (body : List Statement)
  | loop (body : List Statement)
  | breakLoop (location : Location)
  | continueLoop (location : Location)
  | returnFrom (value : Option Expr) (location : Location)
  | assign (target : Target) (op : Option BinaryOp) (value : Expr)
  | eval (expr : Expr)
deriving Repr, Inhabited

/-- A variable that keeps its value for the whole run. -/
structure StaticDecl where
  type : Located IntType
  name : Located String
  volatile : Bool
  length : Option (Located Nat)
  initial : Option Expr
deriving Repr, Inhabited

/-- A parameter of a function or subroutine. -/
structure Parameter where
  type : Located IntType
  name : Located String
deriving Repr, Inhabited

/-- A thread, which has no parameters, or a subroutine, with what stands in its body. -/
structure Coroutine where
  name : Located String
  parameters : List Parameter
  statics : List StaticDecl
  subroutines : List Coroutine
  statements : List Statement
deriving Repr, Inhabited

/-- What stands in a body, each kind in the order of the text. -/
structure Body where
  statics : List StaticDecl
  subroutines : List Coroutine
  statements : List Statement
deriving Repr, Inhabited

/-- The coroutine with a given body. -/
def Coroutine.ofBody (name : Located String) (parameters : List Parameter) (body : Body) :
    Coroutine :=
  ⟨name, parameters, body.statics, body.subroutines, body.statements⟩

/-- The body of a coroutine. -/
def Coroutine.body (coroutine : Coroutine) : Body :=
  ⟨coroutine.statics, coroutine.subroutines, coroutine.statements⟩

/-- A function, which never suspends. -/
structure Function where
  name : Located String
  parameters : List Parameter
  returns : Option (Located IntType)
  body : Body
deriving Repr, Inhabited

/-- Declarations and hints on the top level. -/
inductive Item where
  | header (name : Located String)
  | external (name : Located String) (kind : ExternalKind)
  | static (decl : StaticDecl)
  | function (function : Function)
  | thread (thread : Coroutine)
  | hook (name : Located String) (kind : HookKind) (body : Body)
  | entry (location : Location) (body : Body)
  | useReg (path : Located Path) (group : Option (Located String))
  | tune (path : Located Path) (flags : List (Located String))
  | cflags (name : Located String) (profile : Option (Located String))
deriving Repr, Inhabited

/-- A whole description, with the place of its last token. -/
structure Description where
  items : List Item
  last : Location
deriving Repr, Inhabited

end Coro.Ast
