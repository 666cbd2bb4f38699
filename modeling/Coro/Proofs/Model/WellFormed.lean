import Coro.Model

/-!
Well-formed models: every reference leads to an entity that can be used in its way.

A body relies on the shapes of entities alone. Tables that grow keep the shapes they have, so a body
stays well formed while more is declared.
-/

namespace Coro

/-- How many arguments a function takes, and what it returns. -/
structure FunctionShape where
  arity : Nat
  returns : Option IntType

/-- Where a coroutine is declared, which thread it works for, and how many arguments it takes. -/
structure CoroutineShape where
  parent : Option CoroutineId
  thread : CoroutineId
  arity : Nat

/-- The shape of a function. -/
def Function.shape (function : Function) : FunctionShape :=
  ⟨function.arity, function.returns⟩

/-- The shape of a coroutine. -/
def Coroutine.shape (coroutine : Coroutine) : CoroutineShape :=
  ⟨coroutine.parent, coroutine.thread, coroutine.parameters.length⟩

/-- The shapes of all entities, at their places. -/
structure Shapes where
  externals : List ExternalKind
  /-- A static variable has a length if it is an array. -/
  statics : List (Option Nat)
  coroutines : List CoroutineShape
  functions : List FunctionShape
  hooks : List HookKind

/-- The shapes of the entities of a model. -/
def Model.shapes (model : Model) : Shapes where
  externals := model.externals.map External.kind
  statics := model.statics.map StaticVariable.length
  coroutines := model.coroutines.map Coroutine.shape
  functions := model.functions.map Function.shape
  hooks := model.hooks.map Hook.kind

/-- All shapes are kept, and new ones come behind them. -/
structure Shapes.GrowsTo (before after : Shapes) : Prop where
  externals : before.externals <+: after.externals
  statics : before.statics <+: after.statics
  coroutines : before.coroutines <+: after.coroutines
  functions : before.functions <+: after.functions
  hooks : before.hooks <+: after.hooks

namespace Shapes

/-- Shapes grow to themselves. -/
theorem GrowsTo.refl (shapes : Shapes) : shapes.GrowsTo shapes :=
  ⟨List.prefix_rfl, List.prefix_rfl, List.prefix_rfl, List.prefix_rfl, List.prefix_rfl⟩

/-- Shapes may grow more than once. -/
theorem GrowsTo.trans {first second third : Shapes} (early : first.GrowsTo second)
    (late : second.GrowsTo third) : first.GrowsTo third where
  externals := early.externals.trans late.externals
  statics := early.statics.trans late.statics
  coroutines := early.coroutines.trans late.coroutines
  functions := early.functions.trans late.functions
  hooks := early.hooks.trans late.hooks

/--
A variable can be used here, with an index exactly if it is an array.

External variables are never arrays.
-/
def Allows (shapes : Shapes) (locals : List (Option Nat)) (indexed : Bool) : Var → Prop
  | .static id => ∃ length, shapes.statics[id]? = some length ∧ length.isSome = indexed
  | .localVar id => ∃ length, locals[id]? = some length ∧ length.isSome = indexed
  | .external id =>
    (∃ type volatile, shapes.externals[id]? = some (.data type volatile)) ∧ indexed = false

/-- A function takes so many arguments, and returns a value if one is used. -/
def Takes (shapes : Shapes) (count : Nat) (used : Bool) : Callee → Prop
  | .function id => ∃ function, shapes.functions[id]? = some function ∧
      function.arity = count ∧ (used = true → function.returns.isSome = true)
  | .external id => shapes.externals[id]? = some .function

/-- A coroutine is another one, or stands somewhere inside it. -/
inductive Encloses (shapes : Shapes) (outer : CoroutineId) : CoroutineId → Prop where
  | self : Encloses shapes outer outer
  | inner {id parent : CoroutineId} {shape : CoroutineShape} :
      shapes.coroutines[id]? = some shape → shape.parent = some parent →
      Encloses shapes outer parent → Encloses shapes outer id

/--
A coroutine can call a subroutine with so many arguments.

Both work for one thread, and the subroutine is declared in the caller or in one around it.
-/
def CanCall (shapes : Shapes) (caller callee : CoroutineId) (count : Nat) : Prop :=
  ∃ calling called parent, shapes.coroutines[caller]? = some calling ∧
    shapes.coroutines[callee]? = some called ∧ called.arity = count ∧
    called.thread = calling.thread ∧ called.parent = some parent ∧
    shapes.Encloses parent caller

end Shapes

/-- What the statements of one body depend on. -/
structure BodySetting where
  shapes : Shapes
  /-- The lengths of the local variables that are arrays. -/
  locals : List (Option Nat)
  /-- The coroutine whose body it is; other bodies cannot be suspended. -/
  caller : Option CoroutineId
  /-- A return has to carry a value. -/
  valued : Bool

mutual

/-- Every reference of an expression can be used in its way, and every call has a value. -/
def Expr.WellFormed (setting : BodySetting) : Expr → Prop
  | .const _ => True
  | .read var => setting.shapes.Allows setting.locals false var
  | .element var index =>
    setting.shapes.Allows setting.locals true var ∧ index.WellFormed setting
  | .call callee args =>
    setting.shapes.Takes args.length true callee ∧ Expr.WellFormedAll setting args
  | .unary _ operand => operand.WellFormed setting
  | .binary _ left right => left.WellFormed setting ∧ right.WellFormed setting

/-- All expressions are well formed. -/
def Expr.WellFormedAll (setting : BodySetting) : List Expr → Prop
  | [] => True
  | first :: rest => first.WellFormed setting ∧ Expr.WellFormedAll setting rest

end

/-- An expression that stands for a statement; only there may a call go without a value. -/
def Expr.WellFormedAlone (setting : BodySetting) : Expr → Prop
  | .call callee args =>
    setting.shapes.Takes args.length false callee ∧ Expr.WellFormedAll setting args
  | expr => expr.WellFormed setting

/-- What can stand for a value can stand alone. -/
theorem Expr.WellFormed.alone {setting : BodySetting} {expr : Expr}
    (formed : expr.WellFormed setting) : expr.WellFormedAlone setting := by
  cases expr with
  | call callee args =>
    refine ⟨?_, formed.2⟩
    have taken := formed.1
    cases callee with
    | function id =>
      obtain ⟨function, found, arity, -⟩ := taken
      exact ⟨function, found, arity, nofun⟩
    | external id => exact taken
  | _ => exact formed

/-- A place has an index exactly if its variable is an array. -/
def Place.WellFormed (setting : BodySetting) (place : Place) : Prop :=
  setting.shapes.Allows setting.locals place.index.isSome place.var ∧
    ∀ index, place.index = some index → index.WellFormed setting

mutual

/-- A statement can stand here, inside a loop or outside of all. -/
def Stmt.WellFormed (setting : BodySetting) (inLoop : Bool) : Stmt → Prop
  | .letVar id value =>
    -- Only a variable that is no array can start with a value.
    (∃ length, setting.locals[id]? = some length ∧ (value.isSome = true → length = none)) ∧
      ∀ expr, value = some expr → expr.WellFormed setting
  | .yield _ => setting.caller.isSome = true
  | .waitUntil condition _ _ =>
    setting.caller.isSome = true ∧ condition.WellFormed setting
  | .call callee args _ =>
    (∃ caller, setting.caller = some caller ∧
      setting.shapes.CanCall caller callee args.length) ∧ Expr.WellFormedAll setting args
  | .ifThen condition taken otherwise =>
    condition.WellFormed setting ∧ Stmt.WellFormedAll setting inLoop taken ∧
      Stmt.WellFormedAll setting inLoop otherwise
  | .whileLoop condition body =>
    condition.WellFormed setting ∧ Stmt.WellFormedAll setting true body
  | .loop body => Stmt.WellFormedAll setting true body
  | .breakLoop => inLoop = true
  | .continueLoop => inLoop = true
  | .returnFrom value =>
    value.isSome = setting.valued ∧ ∀ expr, value = some expr → expr.WellFormed setting
  | .assign place _ value => place.WellFormed setting ∧ value.WellFormed setting
  | .eval expr => expr.WellFormedAlone setting

/-- All statements can stand here. -/
def Stmt.WellFormedAll (setting : BodySetting) (inLoop : Bool) : List Stmt → Prop
  | [] => True
  | first :: rest => first.WellFormed setting inLoop ∧ Stmt.WellFormedAll setting inLoop rest

end

/-- An array has from 1 to 65535 elements. -/
def LengthInRange (length : Option Nat) : Prop :=
  ∀ count, length = some count → 1 ≤ count ∧ count ≤ 65535

/-- The body of a declaration belongs to an entity of the model. -/
def Owner.WellFormed (shapes : Shapes) : Owner → Prop
  | .coroutine id => id < shapes.coroutines.length
  | .function id => id < shapes.functions.length
  | .hook id => id < shapes.hooks.length
  | .global | .entry => True

/-- A static variable belongs to an entity and has a length in range. -/
structure StaticVariable.WellFormed (shapes : Shapes) (storage : StaticVariable) : Prop where
  owner : storage.owner.WellFormed shapes
  length : LengthInRange storage.length

/-- Local variables have lengths in range, and the statements can stand in the body. -/
structure BodyWellFormed (shapes : Shapes) (caller : Option CoroutineId) (valued : Bool)
    (locals : List Local) (body : List Stmt) : Prop where
  lengths : ∀ known ∈ locals, LengthInRange known.length
  statements :
    Stmt.WellFormedAll ⟨shapes, locals.map Local.length, caller, valued⟩ false body

/-- A coroutine has its thread, stands behind its parent, and has a well-formed body. -/
structure Coroutine.WellFormed (shapes : Shapes) (id : CoroutineId) (coroutine : Coroutine) :
    Prop where
  /-- Parameters are static variables and no arrays. -/
  parameters : ∀ parameter ∈ coroutine.parameters, shapes.statics[parameter]? = some none
  thread : ∃ shape, shapes.coroutines[coroutine.thread]? = some shape ∧ shape.parent = none
  top : coroutine.parent = none → coroutine.thread = id
  parent : ∀ parent, coroutine.parent = some parent → parent < id ∧
    ∃ shape, shapes.coroutines[parent]? = some shape ∧ shape.thread = coroutine.thread
  body : BodyWellFormed shapes (some id) false coroutine.locals coroutine.body

/-- The parameters of a function are its first local variables, and its body is well formed. -/
structure Function.WellFormed (shapes : Shapes) (function : Function) : Prop where
  parameters : ∀ id < function.arity, (function.locals.map Local.length)[id]? = some none
  body : BodyWellFormed shapes none function.returns.isSome function.locals function.body

/-- Everything that a model refers to exists and can be used in its way. -/
structure Model.WellFormed (model : Model) : Prop where
  statics : ∀ storage ∈ model.statics, storage.WellFormed model.shapes
  coroutines : ∀ id coroutine, model.coroutines[id]? = some coroutine →
    Coroutine.WellFormed model.shapes id coroutine
  functions : ∀ function ∈ model.functions, function.WellFormed model.shapes
  hooks : ∀ hook ∈ model.hooks, BodyWellFormed model.shapes none false hook.locals hook.body
  entry : BodyWellFormed model.shapes none false model.entry.locals model.entry.body

/-- A static variable that can be used is one of the model. -/
theorem Model.static_declared {model : Model} {id : StaticId} {locals : List (Option Nat)}
    {indexed : Bool} (allowed : model.shapes.Allows locals indexed (.static id)) :
    id < model.statics.length := by
  obtain ⟨length, found, -⟩ := allowed
  obtain ⟨small, -⟩ := List.getElem?_eq_some_iff.mp found
  simpa [Model.shapes] using small

/-- A local variable that can be used is one of the body. -/
theorem Shapes.local_declared {shapes : Shapes} {id : LocalId} {locals : List (Option Nat)}
    {indexed : Bool} (allowed : shapes.Allows locals indexed (.localVar id)) :
    id < locals.length := by
  obtain ⟨length, found, -⟩ := allowed
  exact (List.getElem?_eq_some_iff.mp found).1

/-! ## Growing tables -/

/-- An entry stays at its place when more come behind. -/
theorem getElem?_grown {α : Type} {short long : List α} (grown : short <+: long) {i : Nat}
    {value : α} (found : short[i]? = some value) : long[i]? = some value := by
  obtain ⟨within, rfl⟩ := List.getElem?_eq_some_iff.mp found
  exact List.prefix_iff_getElem?.mp grown i within

namespace Shapes

variable {before after : Shapes}

variable (grown : before.GrowsTo after)

include grown

/-- A variable can be used as before. -/
theorem Allows.grow {locals more : List (Option Nat)} {indexed : Bool} {var : Var}
    (longer : locals <+: more)
    (allowed : before.Allows locals indexed var) : after.Allows more indexed var := by
  -- The shape that allows it is still found in its table.
  cases var with
  | static id =>
    obtain ⟨length, found, shape⟩ := allowed
    exact ⟨length, getElem?_grown grown.statics found, shape⟩
  | localVar id =>
    obtain ⟨length, found, shape⟩ := allowed
    exact ⟨length, getElem?_grown longer found, shape⟩
  | external id =>
    obtain ⟨⟨type, volatile, found⟩, plain⟩ := allowed
    exact ⟨⟨type, volatile, getElem?_grown grown.externals found⟩, plain⟩

/-- A function takes what it took. -/
theorem Takes.grow {count : Nat} {used : Bool} {callee : Callee}
    (taken : before.Takes count used callee) : after.Takes count used callee := by
  cases callee with
  | function id =>
    obtain ⟨function, found, arity, valued⟩ := taken
    exact ⟨function, getElem?_grown grown.functions found, arity, valued⟩
  | external id => exact getElem?_grown grown.externals taken

/-- A coroutine stays inside those around it. -/
theorem Encloses.grow {outer id : CoroutineId}
    (enclosed : before.Encloses outer id) : after.Encloses outer id := by
  -- Along the parents, each of which is known by its shape.
  induction enclosed with
  | self => exact .self
  | inner found parent _ ih => exact .inner (getElem?_grown grown.coroutines found) parent ih

/-- A subroutine can be called as before. -/
theorem CanCall.grow {caller callee : CoroutineId} {count : Nat}
    (possible : before.CanCall caller callee count) : after.CanCall caller callee count := by
  obtain ⟨calling, called, parent, here, there, arity, thread, inside, around⟩ := possible
  exact ⟨calling, called, parent, getElem?_grown grown.coroutines here,
    getElem?_grown grown.coroutines there, arity, thread, inside, around.grow grown⟩

end Shapes

/-- One setting offers all that another one does, to the same kind of body. -/
structure BodySetting.GrowsTo (before after : BodySetting) : Prop where
  shapes : before.shapes.GrowsTo after.shapes
  locals : before.locals <+: after.locals
  caller : before.caller = after.caller
  valued : before.valued = after.valued

section Growing

variable {before after : BodySetting}

mutual

/-- A well-formed expression stays so in a larger setting. -/
theorem Expr.WellFormed.grow (grown : before.GrowsTo after) {expr : Expr}
    (formed : expr.WellFormed before) : expr.WellFormed after := by
  -- By the parts of the expression; only its names look at the setting.
  cases expr with
  | const value => trivial
  | read var => exact Shapes.Allows.grow grown.shapes grown.locals formed
  | element var index =>
    exact ⟨formed.1.grow grown.shapes grown.locals, formed.2.grow grown⟩
  | call callee args => exact ⟨formed.1.grow grown.shapes, formed.2.grow grown⟩
  | unary op operand =>
    have inner : operand.WellFormed before := formed
    have still := inner.grow grown
    exact still
  | binary op left right =>
    exact ⟨formed.1.grow grown, formed.2.grow grown⟩

/-- So do all expressions of a list. -/
theorem Expr.WellFormedAll.grow (grown : before.GrowsTo after) {exprs : List Expr}
    (formed : Expr.WellFormedAll before exprs) : Expr.WellFormedAll after exprs := by
  cases exprs with
  | nil => trivial
  | cons first rest =>
    exact ⟨formed.1.grow grown, formed.2.grow grown⟩

end

/-- So does one that stands for a statement. -/
theorem Expr.WellFormedAlone.grow (grown : before.GrowsTo after) {expr : Expr}
    (formed : expr.WellFormedAlone before) : expr.WellFormedAlone after := by
  cases expr with
  | call callee args => exact ⟨formed.1.grow grown.shapes, formed.2.grow grown⟩
  | _ => exact Expr.WellFormed.grow grown formed

/-- A place can be assigned to as before. -/
theorem Place.WellFormed.grow (grown : before.GrowsTo after) {place : Place}
    (formed : place.WellFormed before) : place.WellFormed after :=
  ⟨formed.1.grow grown.shapes grown.locals,
    fun index present => Expr.WellFormed.grow grown (formed.2 index present)⟩

mutual

/-- A well-formed statement stays so in a larger setting. -/
theorem Stmt.WellFormed.grow (grown : before.GrowsTo after) {inLoop : Bool} {statement : Stmt}
    (formed : statement.WellFormed before inLoop) : statement.WellFormed after inLoop := by
  -- By the parts of the statement; caller and value are the same in both settings.
  cases statement with
  | letVar id value =>
    obtain ⟨⟨length, found, plain⟩, values⟩ := formed
    exact ⟨⟨length, getElem?_grown grown.locals found, plain⟩,
      fun expr present => (values expr present).grow grown⟩
  | yield location => exact (congrArg Option.isSome grown.caller).symm.trans formed
  | waitUntil condition hint location =>
    exact ⟨grown.caller ▸ formed.1, formed.2.grow grown⟩
  | call callee args location =>
    obtain ⟨⟨caller, known, possible⟩, formedArgs⟩ := formed
    exact ⟨⟨caller, grown.caller ▸ known, possible.grow grown.shapes⟩, formedArgs.grow grown⟩
  | ifThen condition taken otherwise =>
    exact ⟨formed.1.grow grown, formed.2.1.grow grown,
      formed.2.2.grow grown⟩
  | whileLoop condition body =>
    exact ⟨formed.1.grow grown, formed.2.grow grown⟩
  | loop body =>
    have inner : Stmt.WellFormedAll before true body := formed
    have still := inner.grow grown
    exact still
  | breakLoop => exact formed
  | continueLoop => exact formed
  | returnFrom value =>
    exact ⟨grown.valued ▸ formed.1, fun expr present => (formed.2 expr present).grow grown⟩
  | assign place op value =>
    exact ⟨formed.1.grow grown, formed.2.grow grown⟩
  | eval expr => exact Expr.WellFormedAlone.grow grown formed

/-- So do all statements of a list. -/
theorem Stmt.WellFormedAll.grow (grown : before.GrowsTo after) {inLoop : Bool}
    {statements : List Stmt} (formed : Stmt.WellFormedAll before inLoop statements) :
    Stmt.WellFormedAll after inLoop statements := by
  cases statements with
  | nil => trivial
  | cons first rest =>
    exact ⟨formed.1.grow grown, formed.2.grow grown⟩

end

end Growing

/-! ## Entries of growing tables -/

section Entries

variable {before after : Shapes} (grown : before.GrowsTo after)

include grown

/-- A body stays well formed when more is declared. -/
theorem BodyWellFormed.grow {caller : Option CoroutineId} {valued : Bool} {locals : List Local}
    {body : List Stmt} (formed : BodyWellFormed before caller valued locals body) :
    BodyWellFormed after caller valued locals body where
  lengths := formed.lengths
  statements := by
    have setting : BodySetting.GrowsTo ⟨before, locals.map Local.length, caller, valued⟩
        ⟨after, locals.map Local.length, caller, valued⟩ :=
      ⟨grown, List.prefix_rfl, rfl, rfl⟩
    exact formed.statements.grow setting

/-- So does a coroutine, at its place. -/
theorem Coroutine.WellFormed.grow {id : CoroutineId} {coroutine : Coroutine}
    (formed : coroutine.WellFormed before id) : coroutine.WellFormed after id where
  parameters parameter member :=
    getElem?_grown grown.statics (formed.parameters parameter member)
  thread := by
    obtain ⟨shape, found, top⟩ := formed.thread
    exact ⟨shape, getElem?_grown grown.coroutines found, top⟩
  top := formed.top
  parent parent inside := by
    obtain ⟨earlier, shape, found, thread⟩ := formed.parent parent inside
    exact ⟨earlier, shape, getElem?_grown grown.coroutines found, thread⟩
  body := formed.body.grow grown

/-- So does a function. -/
theorem Function.WellFormed.grow {function : Function} (formed : function.WellFormed before) :
    function.WellFormed after :=
  ⟨formed.parameters, formed.body.grow grown⟩

end Entries

end Coro
