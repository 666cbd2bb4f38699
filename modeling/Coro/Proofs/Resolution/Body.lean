import Coro.Proofs.Model.WellFormed
import Coro.Proofs.Resolution.Lookup

/-!
Bodies are resolved into well-formed statements, as far as everything in scope is known, and all of
their names are looked up.
-/

namespace Coro

variable {later : BodyNames} {inLoop : Bool} {entity : Entity} {name : Located String}
  {location : Location} {count more : Nat} {value : Option Ast.Expr} {caller : Option CoroutineId}
  {length : Option Nat} {scope : Scope} {after before : Shapes} {statement : Stmt}
  {construct : String} {result : Unit} {var : Var} {ε α β : Type} {next : α → Except ε β}

theorem bind_eq_ok {first : Except ε α} {result : β} :
    (first >>= next) = .ok result ↔ ∃ value, first = .ok value ∧ next value = .ok result := by
  cases first with
  | error fault | ok value => simp [Bind.bind, Except.bind]

theorem bind_eq_error {first : Except ε α} {fault : ε} :
    (first >>= next) = .error fault ↔
      first = .error fault ∨ ∃ value, first = .ok value ∧ next value = .error fault := by
  cases first with
  | error early | ok value => simp [Bind.bind, Except.bind]

theorem pure_eq_ok {ε α : Type} {value result : α} :
    (pure value : Except ε α) = .ok result ↔ value = result := by
  simp [Pure.pure, Except.pure]

theorem throw_ne_ok {ε α : Type} {fault : ε} {result : α} :
    (throw fault : Except ε α) ≠ .ok result := by
  simp [throw, throwThe, MonadExceptOf.throw]

theorem throw_bind_ne_ok {fault : ε} {result : β} :
    ((throw fault : Except ε α) >>= next) ≠ .ok result := by
  intro succeeded
  obtain ⟨value, given, -⟩ := bind_eq_ok.mp succeeded
  exact throw_ne_ok given

/-- The shapes of the entities declared so far. -/
def Tables.shapes (tables : Tables) : Shapes where
  externals := tables.externals.map External.kind
  statics := tables.statics.map StaticVariable.length
  coroutines := tables.coroutines.map Coroutine.shape
  functions := tables.functions.map Function.shape
  hooks := tables.hooks.map Hook.kind

/--
An entity can be named in a body that has declared so many local variables.

A subroutine can be named only by coroutines of its thread that stand in its parent.
-/
def Shapes.Sees (shapes : Shapes) (caller : Option CoroutineId) (count : Nat) : Entity → Prop
  | .static id => id < shapes.statics.length
  | .localVar id => id < count
  | .external id => id < shapes.externals.length
  | .function id => id < shapes.functions.length
  | .coroutine id => ∃ called, shapes.coroutines[id]? = some called ∧
      ∀ parent, called.parent = some parent → ∃ self calling, caller = some self ∧
        shapes.coroutines[self]? = some calling ∧ called.thread = calling.thread ∧
        shapes.Encloses parent self
  | .hook id => id < shapes.hooks.length

/-- Every name of a scope stands for an entity that can be named. -/
def Scope.Sound (shapes : Shapes) (caller : Option CoroutineId) (count : Nat) (scope : Scope) :
    Prop :=
  ∀ name entity, scope.find? name = some entity → shapes.Sees caller count entity

theorem Shapes.Sees.grow (grown : before.GrowsTo after) (longer : count ≤ more)
    (seen : before.Sees caller count entity) : after.Sees caller more entity := by
  cases entity with
  | static id => exact Nat.lt_of_lt_of_le seen grown.statics.length_le
  | localVar id => exact Nat.lt_of_lt_of_le seen longer
  | external id => exact Nat.lt_of_lt_of_le seen grown.externals.length_le
  | function id => exact Nat.lt_of_lt_of_le seen grown.functions.length_le
  | coroutine id =>
    obtain ⟨called, found, visible⟩ := seen
    refine ⟨called, getElem?_grown grown.coroutines found, fun parent inside => ?_⟩
    obtain ⟨self, calling, known, here, thread, around⟩ := visible parent inside
    exact ⟨self, calling, known, getElem?_grown grown.coroutines here, thread,
      around.grow grown⟩
  | hook id => exact Nat.lt_of_lt_of_le seen grown.hooks.length_le

theorem Scope.Sound.grow (grown : before.GrowsTo after) (longer : count ≤ more)
    (sound : scope.Sound before caller count) : scope.Sound after caller more :=
  fun name entity found => (sound name entity found).grow grown longer

/-- A sound scope stays sound with a new name for an entity that can be named. -/
theorem Scope.Sound.define {shapes : Shapes} {extended : Scope}
    (sound : scope.Sound shapes caller count) (seen : shapes.Sees caller count entity)
    (defined : scope.define name entity = .ok extended) : extended.Sound shapes caller count := by
  intro sought found known
  rw [Scope.find?_define defined] at known
  -- The new name stands for the new entity, and all others for what they stood for.
  split at known
  · cases known
    exact seen
  · exact sound sought found known

/-- A return carries a value in this kind of body. -/
def BodyRole.valued : BodyRole → Bool
  | .function _ (some _) => true
  | _ => false

theorem BodyRole.valued_function (name : String) (returns : Option IntType) :
    (BodyRole.function name returns).valued = returns.isSome := by
  cases returns <;> rfl

/-- What is known of the world around a body: its scopes are sound and its role is its own. -/
structure Surroundings.Sound (around : Surroundings) (caller : Option CoroutineId)
    (valued : Bool) : Prop where
  outer : ∀ scope ∈ around.outer, scope.Sound around.tables.shapes caller 0
  suspends : around.role = .coroutine → caller.isSome = true
  /-- A coroutine can be found itself. -/
  calling : ∀ self, caller = some self →
    ∃ shape, around.tables.shapes.coroutines[self]? = some shape
  returns : valued = around.role.valued

/-- The names that a body has declared are sound, and its arrays have lengths in range. -/
structure BodyNames.Sound (names : BodyNames) (shapes : Shapes) (caller : Option CoroutineId) :
    Prop where
  scope : names.scope.Sound shapes caller names.locals.length
  lengths : ∀ known ∈ names.locals, LengthInRange known.length

namespace Surroundings

variable {around : Surroundings} {caller : Option CoroutineId} {valued : Bool}
  {names : BodyNames}

/-- The setting in which statements stand behind those that declared some names. -/
def setting (around : Surroundings) (caller : Option CoroutineId) (valued : Bool)
    (names : BodyNames) : BodySetting :=
  ⟨around.tables.shapes, names.locals.map Local.length, caller, valued⟩
section Sound

variable (sound : around.Sound caller valued) (known : names.Sound around.tables.shapes caller)

include sound known

/-- Whatever a name stands for can be named here. -/
theorem entity_sees (found : around.entity names name = .ok entity) :
    around.tables.shapes.Sees caller names.locals.length entity := by
  simp only [Surroundings.entity, lookup] at found
  split at found
  case h_2 => exact absurd found throw_ne_ok
  case h_1 value located =>
    cases pure_eq_ok.mp found
    -- The scope that has the name is the body's own or one around it.
    obtain ⟨scope, member, here⟩ := List.exists_of_findSome?_eq_some located
    rcases List.mem_cons.mp member with rfl | outside
    · exact known.scope _ _ here
    · exact (sound.outer scope outside _ _ here).grow (.refl _) (Nat.zero_le _)

/-- A name that stands for a variable gives one that exists, with its length. -/
theorem storage_resolves (found : around.storage names name = .ok (var, length)) :
    around.entity names name = .ok var.entity ∧
      around.tables.shapes.Allows (names.locals.map Local.length) length.isSome var := by
  simp only [Surroundings.storage] at found
  obtain ⟨entity, named, chosen⟩ := bind_eq_ok.mp found
  have seen := entity_sees sound known named
  -- Only entities with storage of their own pass, and each gives its own variable.
  cases entity with
  | static id =>
    cases pure_eq_ok.mp chosen
    have within : id < around.tables.statics.length := by
      simpa [Shapes.Sees, Tables.shapes] using seen
    exact ⟨named, around.tables.statics[id].length,
      by simp [Tables.shapes, List.getElem?_eq_getElem within],
      by simp [List.getElem?_eq_getElem within]⟩
  | localVar id =>
    cases pure_eq_ok.mp chosen
    have within : id < names.locals.length := seen
    exact ⟨named, names.locals[id].length, by simp [List.getElem?_eq_getElem within],
      by simp [List.getElem?_eq_getElem within]⟩
  | external id =>
    simp only at chosen
    split at chosen
    case h_1 type volatile kind =>
      cases pure_eq_ok.mp chosen
      exact ⟨named, ⟨type, volatile, by simpa [Tables.shapes] using kind⟩, rfl⟩
    case h_2 => exact absurd chosen throw_ne_ok
  | _ => exact absurd chosen throw_ne_ok

/-- A variable that is used without an index is no array. -/
theorem scalar_resolves (found : around.scalar names name = .ok var) :
    around.entity names name = .ok var.entity ∧
      around.tables.shapes.Allows (names.locals.map Local.length) false var := by
  simp only [Surroundings.scalar] at found
  obtain ⟨⟨chosen, length⟩, stored, checked⟩ := bind_eq_ok.mp found
  have resolves := storage_resolves sound known stored
  -- An array is refused, so no length is left.
  cases length with
  | some count => exact absurd checked throw_bind_ne_ok
  | none =>
    simp only [Option.isSome_none, Bool.false_eq_true, ↓reduceIte, pure_eq_ok] at checked
    exact checked ▸ resolves

/-- A variable that is used with an index is an array. -/
theorem array_resolves (found : around.array names name = .ok var) :
    around.entity names name = .ok var.entity ∧
      around.tables.shapes.Allows (names.locals.map Local.length) true var := by
  simp only [Surroundings.array] at found
  obtain ⟨⟨chosen, length⟩, stored, checked⟩ := bind_eq_ok.mp found
  have resolves := storage_resolves sound known stored
  cases length with
  | none => exact absurd checked throw_bind_ne_ok
  | some count =>
    simp only [Option.isNone_some, Bool.false_eq_true, ↓reduceIte, pure_eq_ok] at checked
    exact checked ▸ resolves

omit sound known in
theorem checkArity_eq {expected found : Nat}
    (checked : checkArity name expected found = .ok result) : expected = found := by
  simp only [checkArity] at checked
  split at checked
  · assumption
  · exact absurd checked throw_ne_ok

omit sound known in
/-- A name that stands for a function gives one that takes the arguments. -/
theorem callee_resolves {isStatement : Bool} {callee : Callee}
    (found : around.callee names name count isStatement = .ok callee) :
    around.entity names name = .ok callee.entity ∧
      around.tables.shapes.Takes count (!isStatement) callee := by
  simp only [Surroundings.callee] at found
  obtain ⟨entity, named, chosen⟩ := bind_eq_ok.mp found
  cases entity with
  | function id =>
    simp only at chosen
    split at chosen
    case h_2 => exact absurd chosen throw_ne_ok
    case h_1 function declared =>
      obtain ⟨_, arity, checked⟩ := bind_eq_ok.mp chosen
      -- A call whose value is used is refused for a function without one.
      split at checked
      · exact absurd checked throw_bind_ne_ok
      · rename_i valued
        cases pure_eq_ok.mp checked
        refine ⟨named, function.shape, by simp [Tables.shapes, declared], checkArity_eq arity, ?_⟩
        intro used
        simpa [used, Function.shape, Option.isSome_iff_ne_none] using valued
  | external id =>
    simp only at chosen
    split at chosen
    case h_1 kind =>
      cases pure_eq_ok.mp chosen
      exact ⟨named, by simpa [Shapes.Takes, Tables.shapes] using kind⟩
    case h_2 => exact absurd chosen throw_ne_ok
  | _ => exact absurd chosen throw_ne_ok

/-- A name that stands for a subroutine gives one that the body can call. -/
theorem subroutine_resolves {callee : CoroutineId}
    (found : around.subroutine names name count = .ok callee) :
    around.entity names name = .ok (.coroutine callee) ∧
      ∃ self, caller = some self ∧ around.tables.shapes.CanCall self callee count := by
  simp only [Surroundings.subroutine] at found
  obtain ⟨entity, named, chosen⟩ := bind_eq_ok.mp found
  have seen := entity_sees sound known named
  cases entity with
  | coroutine id =>
    simp only at chosen
    split at chosen
    case h_2 => exact absurd chosen throw_ne_ok
    case h_1 coroutine declared =>
      -- Threads are refused, so the coroutine has a parent around the caller.
      split at chosen
      · exact absurd chosen throw_bind_ne_ok
      · rename_i inner
        obtain ⟨_, arity, given⟩ := bind_eq_ok.mp chosen
        cases pure_eq_ok.mp given
        obtain ⟨called, there, visible⟩ := seen
        have shape : called = coroutine.shape := by
          simpa [Tables.shapes, declared] using there.symm
        subst shape
        obtain ⟨parent, inside⟩ : ∃ parent, coroutine.parent = some parent := by
          simpa [Coroutine.isThread, ← Option.isSome_iff_exists,
            Option.isSome_iff_ne_none] using inner
        obtain ⟨self, calling, self_eq, here, thread, within⟩ := visible parent inside
        exact ⟨named, self, self_eq, calling, coroutine.shape, parent, here, there,
          checkArity_eq arity, thread, inside, within⟩
  | _ => exact absurd chosen throw_ne_ok

omit sound known in
mutual

/-- The names of an expression are looked up one by one, and it is well formed. -/
theorem expression_resolves (sound : around.Sound caller valued)
    (known : names.Sound around.tables.shapes caller) (written : Ast.Expr) {expr : Expr}
    (resolved : around.expression names written = .ok expr) :
    around.FindsAll names written.names expr.entities ∧
      expr.WellFormed (around.setting caller valued names) := by
  -- An expression declares nothing, so all of its names are sought in the same scopes.
  cases written with simp only [Surroundings.expression, bind_eq_ok, pure_eq_ok] at resolved
  | int value location | char byte location =>
    subst resolved
    exact ⟨.nil, trivial⟩
  | name name =>
    obtain ⟨var, used, rfl⟩ := resolved
    obtain ⟨named, allowed⟩ := scalar_resolves sound known used
    exact ⟨.cons named .nil, allowed⟩
  | element name index location =>
    obtain ⟨var, used, inner, computed, rfl⟩ := resolved
    obtain ⟨named, allowed⟩ := array_resolves sound known used
    obtain ⟨found, formed⟩ := expression_resolves sound known index computed
    exact ⟨.cons named found, allowed, formed⟩
  | call function args location =>
    obtain ⟨callee, called, values, computed, rfl⟩ := resolved
    obtain ⟨named, takes⟩ := callee_resolves called
    obtain ⟨found, formed, count⟩ := expressions_resolve sound known args computed
    exact ⟨.cons named found, count ▸ takes, formed⟩
  | unary op operand location =>
    obtain ⟨inner, computed, rfl⟩ := resolved
    have resolves := expression_resolves sound known operand computed
    exact resolves
  | binary op left right location =>
    obtain ⟨first, one, second, other, rfl⟩ := resolved
    obtain ⟨early, before⟩ := expression_resolves sound known left one
    obtain ⟨late, behind⟩ := expression_resolves sound known right other
    exact ⟨List.rel_append early late, before, behind⟩

theorem expressions_resolve (sound : around.Sound caller valued)
    (known : names.Sound around.tables.shapes caller) (written : List Ast.Expr) {exprs : List Expr}
    (resolved : around.expressions names written = .ok exprs) :
    around.FindsAll names (Ast.Expr.namesAll written) (Expr.entitiesAll exprs) ∧
      Expr.WellFormedAll (around.setting caller valued names) exprs ∧
      written.length = exprs.length := by
  cases written with
  | nil =>
    cases pure_eq_ok.mp resolved
    exact ⟨.nil, trivial, rfl⟩
  | cons first rest =>
    simp only [Surroundings.expressions, bind_eq_ok, pure_eq_ok] at resolved
    obtain ⟨one, computed, others, more, rfl⟩ := resolved
    obtain ⟨early, before⟩ := expression_resolves sound known first computed
    obtain ⟨late, behind, count⟩ := expressions_resolve sound known rest more
    exact ⟨List.rel_append early late, ⟨before, behind⟩, by simp [count]⟩

end

/-- What is assigned to is a well-formed place. -/
theorem place_resolves {target : Ast.Target} {place : Place}
    (resolved : around.place names target = .ok place) :
    around.FindsAll names (target.name :: Ast.Expr.namesOpt target.index)
        (place.var.entity :: Expr.entitiesOpt place.index) ∧
      place.WellFormed (around.setting caller valued names) := by
  simp only [Surroundings.place] at resolved
  split at resolved
  case h_1 missing =>
    simp only [bind_eq_ok, pure_eq_ok] at resolved
    obtain ⟨var, used, rfl⟩ := resolved
    obtain ⟨named, allowed⟩ := scalar_resolves sound known used
    rw [missing]
    exact ⟨.cons named .nil, allowed, by simp⟩
  case h_2 index present =>
    simp only [bind_eq_ok, pure_eq_ok] at resolved
    obtain ⟨var, used, inner, computed, rfl⟩ := resolved
    obtain ⟨named, allowed⟩ := array_resolves sound known used
    obtain ⟨found, formed⟩ := expression_resolves sound known index computed
    rw [present]
    refine ⟨.cons named found, allowed, ?_⟩
    rintro expr ⟨rfl⟩
    exact formed

/-- An expression that stands for a statement is well formed as one. -/
theorem evaluated_resolves {written : Ast.Expr} {expr : Expr}
    (resolved : around.evaluated names written = .ok expr) :
    around.FindsAll names written.names expr.entities ∧
      expr.WellFormedAlone (around.setting caller valued names) := by
  -- A call that is used has a value, so it may also go unused.
  have alone : ∀ expr : Expr, expr.WellFormed (around.setting caller valued names) →
      expr.WellFormedAlone (around.setting caller valued names) := by
    intro expr formed
    cases expr with
    | call callee args =>
      refine ⟨?_, formed.2⟩
      cases callee with
      | function id =>
        obtain ⟨function, found, arity, -⟩ := formed.1
        exact ⟨function, found, arity, by simp⟩
      | external id => exact formed.1
    | _ => exact formed
  cases written with
  | call function args location =>
    simp only [Surroundings.evaluated, bind_eq_ok, pure_eq_ok] at resolved
    obtain ⟨callee, called, values, computed, rfl⟩ := resolved
    obtain ⟨named, takes⟩ := callee_resolves called
    obtain ⟨found, formed, count⟩ := expressions_resolve sound known args computed
    exact ⟨.cons named found, count ▸ takes, formed⟩
  | _ =>
    obtain ⟨found, formed⟩ := expression_resolves sound known _ resolved
    exact ⟨found, alone _ formed⟩

/-- A return carries a value exactly where one is expected. -/
theorem returned_resolves (resolved : around.returned names value location = .ok statement) :
    around.Looks names ((Ast.Expr.namesOpt value).map .use) statement.mentions names ∧
      statement.WellFormed (around.setting caller valued names) inLoop := by
  have expected := sound.returns
  simp only [Surroundings.returned] at resolved
  split at resolved
  case h_1 name type value role =>
    simp only [bind_eq_ok, pure_eq_ok] at resolved
    obtain ⟨expr, computed, rfl⟩ := resolved
    obtain ⟨found, formed⟩ := expression_resolves sound known value computed
    refine ⟨.uses found, by simp [setting, expected, role, BodyRole.valued], ?_⟩
    rintro inner ⟨rfl⟩
    exact formed
  case h_2 => exact absurd resolved throw_ne_ok
  case h_3 => exact absurd resolved throw_ne_ok
  case h_4 =>
    -- Only a function that returns a value asks for one, and it was refused above.
    cases pure_eq_ok.mp resolved
    exact ⟨.nil names, by simp only [setting, expected, BodyRole.valued, Option.isSome_none],
      by simp⟩

omit sound known in
/-- A length that is accepted is in range. -/
theorem declaredLength_inRange {written : Option (Located Nat)}
    (checked : declaredLength written = .ok length) : LengthInRange length := by
  cases written with
  | none =>
    cases pure_eq_ok.mp checked
    simp [LengthInRange]
  | some written =>
    simp only [declaredLength] at checked
    obtain ⟨count, accepted, given⟩ := bind_eq_ok.mp checked
    cases pure_eq_ok.mp given
    simp only [arrayLength] at accepted
    split at accepted
    case isFalse => exact absurd accepted throw_ne_ok
    case isTrue inRange =>
      cases pure_eq_ok.mp accepted
      rintro found ⟨rfl⟩
      exact inRange

/-- The first value of a variable is well formed, and arrays have none. -/
theorem initialValue_resolves {written : Option Ast.Expr} {value : Option Expr}
    (resolved : around.initialValue names length written = .ok value) :
    around.FindsAll names (Ast.Expr.namesOpt written) (Expr.entitiesOpt value) ∧
      (value.isSome = true → length = none) ∧
      ∀ expr, value = some expr → expr.WellFormed (around.setting caller valued names) := by
  cases written with
  | none =>
    cases pure_eq_ok.mp resolved
    exact ⟨.nil, by simp⟩
  | some written =>
    simp only [Surroundings.initialValue] at resolved
    split at resolved
    case isTrue => exact absurd resolved throw_bind_ne_ok
    case isFalse plain =>
      simp only [bind_eq_ok, pure_eq_ok] at resolved
      obtain ⟨expr, computed, rfl⟩ := resolved
      obtain ⟨found, formed⟩ := expression_resolves sound known written computed
      refine ⟨found, fun _ => by simpa using plain, ?_⟩
      rintro inner ⟨rfl⟩
      exact formed

omit sound known in
theorem setting_growsTo (longer : names.locals <+: later.locals) :
    (around.setting caller valued names).GrowsTo (around.setting caller valued later) :=
  ⟨.refl _, longer.map _, rfl, rfl⟩

/-- Statements that were resolved with some names fit behind what they have declared. -/
structure Continues (around : Surroundings) (caller : Option CoroutineId)
    (names later : BodyNames) : Prop where
  sound : later.Sound around.tables.shapes caller
  longer : names.locals <+: later.locals

omit sound known in
theorem Continues.trans {middle : BodyNames} (one : Continues around caller names middle)
    (other : Continues around caller middle later) : Continues around caller names later :=
  ⟨other.sound, one.longer.trans other.longer⟩

/-- A declaration looks names up, adds one, and is well formed where its variable is known. -/
theorem declaration_resolves {type : IntType} {length : Option (Located Nat)}
    (resolved : around.declaration names type name length value = .ok (statement, later)) :
    around.Looks names ((Ast.Expr.namesOpt value).map .use ++ [.declare name]) statement.mentions
        later ∧
      Continues around caller names later ∧
      statement.WellFormed (around.setting caller valued later) inLoop := by
  simp only [Surroundings.declaration, bind_eq_ok, pure_eq_ok] at resolved
  obtain ⟨count, lengthGiven, first, valueGiven, scope, defined, same⟩ := resolved
  cases same
  have longer : names.locals <+: names.locals ++ [⟨name.value, type, count, none, name.location⟩] :=
    List.prefix_append _ _
  -- The value is resolved while the name is still unknown.
  obtain ⟨found, plain, formed⟩ := initialValue_resolves sound known valueGiven
  refine ⟨(Looks.uses found).append (.declare _ rfl rfl defined (.nil _)), ⟨⟨?_, ?_⟩, longer⟩,
    ⟨count, ?_, plain⟩, fun expr present => ?_⟩
  · -- The new name stands for the last local variable.
    have wider := known.scope.grow (.refl _) (Nat.le_succ names.locals.length)
    have seen : around.tables.shapes.Sees caller (names.locals.length + 1)
        (.localVar names.locals.length) := Nat.lt_succ_self _
    simpa using wider.define seen defined
  · intro declared member
    rcases List.mem_append.mp member with old | new
    · exact known.lengths declared old
    · cases List.mem_singleton.mp new
      exact declaredLength_inRange lengthGiven
  · simp [setting]
  · exact (formed expr present).grow (setting_growsTo longer)

end Sound

/-- Only bodies of coroutines pass the check for suspensions. -/
theorem suspension_allowed (sound : around.Sound caller valued)
    (checked : around.checkSuspension construct location = .ok result) : caller.isSome = true := by
  simp only [Surroundings.checkSuspension] at checked
  split at checked
  case h_1 role => exact sound.suspends role
  case h_2 => exact absurd checked throw_ne_ok

theorem checkLoop_inside (checked : checkLoop inLoop construct location = .ok result) :
    inLoop = true := by
  simp only [checkLoop] at checked
  split at checked
  case isTrue inside => exact inside
  case isFalse => exact absurd checked throw_ne_ok

mutual

/--
The mentions of a statement are looked up in the order of the text, and it is well formed where the
names that it declares are known.
-/
theorem statement_resolves (sound : around.Sound caller valued) {names : BodyNames}
    (known : names.Sound around.tables.shapes caller) (inLoop : Bool) (written : Ast.Statement)
    {statement : Stmt} {later : BodyNames}
    (resolved : around.statement inLoop names written = .ok (statement, later)) :
    around.Looks names written.mentions statement.mentions later ∧
      Continues around caller names later ∧
      statement.WellFormed (around.setting caller valued later) inLoop := by
  have same : Continues around caller names names := ⟨known, List.prefix_rfl⟩
  cases written with simp only [Surroundings.statement, bind_eq_ok, pure_eq_ok] at resolved
  | letVar type name length value => exact declaration_resolves sound known resolved
  | yield location =>
    obtain ⟨_, allowed, given⟩ := resolved
    cases given
    exact ⟨.nil names, same, suspension_allowed sound allowed⟩
  | waitUntil condition hint =>
    obtain ⟨_, allowed, test, computed, given⟩ := resolved
    cases given
    obtain ⟨found, formed⟩ := expression_resolves sound known condition computed
    exact ⟨.uses found, same, suspension_allowed sound allowed, formed⟩
  | call subroutine args =>
    obtain ⟨_, -, callee, called, values, computed, given⟩ := resolved
    cases given
    obtain ⟨named, callable⟩ := subroutine_resolves sound known called
    obtain ⟨found, formed, count⟩ := expressions_resolve sound known args computed
    exact ⟨.uses (.cons named found), same, count ▸ callable, formed⟩
  | ifThen condition taken otherwise =>
    obtain ⟨test, computed, ⟨first, between⟩, one, ⟨second, behind⟩, other, given⟩ := resolved
    cases given
    -- What one block declares is known in the other one, and behind both.
    obtain ⟨found, formed⟩ := expression_resolves sound known condition computed
    obtain ⟨front, early, firstFormed⟩ := statements_resolve sound known inLoop taken one
    obtain ⟨back, late, secondFormed⟩ := statements_resolve sound early.sound inLoop otherwise other
    have both := early.trans late
    exact ⟨((Looks.uses found).append front).append back, both,
      formed.grow (setting_growsTo both.longer),
      firstFormed.grow (setting_growsTo late.longer), secondFormed⟩
  | whileLoop condition body =>
    obtain ⟨test, computed, ⟨inner, behind⟩, repeated, given⟩ := resolved
    cases given
    obtain ⟨found, formed⟩ := expression_resolves sound known condition computed
    obtain ⟨looks, late, bodyFormed⟩ := statements_resolve sound known true body repeated
    exact ⟨(Looks.uses found).append looks, late, formed.grow (setting_growsTo late.longer),
      bodyFormed⟩
  | loop body =>
    obtain ⟨⟨inner, behind⟩, repeated, given⟩ := resolved
    cases given
    exact statements_resolve sound known true body repeated
  | breakLoop location | continueLoop location =>
    obtain ⟨_, inside, given⟩ := resolved
    cases given
    exact ⟨.nil names, same, checkLoop_inside inside⟩
  | returnFrom value location =>
    obtain ⟨result, returning, given⟩ := resolved
    cases given
    obtain ⟨looks, formed⟩ := returned_resolves sound known returning
    exact ⟨looks, same, formed⟩
  | assign target op value =>
    obtain ⟨place, placed, expr, computed, given⟩ := resolved
    cases given
    obtain ⟨early, placeFormed⟩ := place_resolves sound known placed
    obtain ⟨late, formed⟩ := expression_resolves sound known value computed
    exact ⟨.uses (List.rel_append early late), same, placeFormed, formed⟩
  | eval expr =>
    obtain ⟨result, computed, given⟩ := resolved
    cases given
    obtain ⟨found, formed⟩ := evaluated_resolves sound known computed
    exact ⟨.uses found, same, formed⟩

theorem statements_resolve (sound : around.Sound caller valued) {names : BodyNames}
    (known : names.Sound around.tables.shapes caller) (inLoop : Bool)
    (written : List Ast.Statement) {statements : List Stmt} {later : BodyNames}
    (resolved : around.statements inLoop names written = .ok (statements, later)) :
    around.Looks names (Ast.Statement.mentionsAll written) (Stmt.mentionsAll statements) later ∧
      Continues around caller names later ∧
      Stmt.WellFormedAll (around.setting caller valued later) inLoop statements := by
  cases written with
  | nil =>
    cases pure_eq_ok.mp resolved
    exact ⟨.nil names, ⟨known, List.prefix_rfl⟩, trivial⟩
  | cons first rest =>
    simp only [Surroundings.statements, bind_eq_ok, pure_eq_ok] at resolved
    obtain ⟨⟨head, between⟩, one, ⟨tail, behind⟩, others, given⟩ := resolved
    cases given
    obtain ⟨front, early, firstFormed⟩ := statement_resolves sound known inLoop first one
    obtain ⟨back, late, restFormed⟩ := statements_resolve sound early.sound inLoop rest others
    exact ⟨front.append back, early.trans late, firstFormed.grow (setting_growsTo late.longer),
      restFormed⟩

end

end Surroundings

end Coro
