import Coro.Proofs.Program.Lowering

/-!
What bodies and their code refer to.

A body reaches the rest of a program only through the variables, functions and subroutines that it
refers to. Its code refers to the same ones, where they are kept, and to the parameters of the
subroutines that it calls.
-/

namespace Coro

/-- What a body may refer to. -/
structure References where
  var : Var → Prop
  callee : Callee → Prop
  subroutine : CoroutineId → Prop

/-- All that some expressions may refer to is granted to others, with variables kept elsewhere. -/
structure References.Within (inner outer : References) (rename : Var → Var) : Prop where
  var : ∀ var, inner.var var → outer.var (rename var)
  callee : ∀ callee, inner.callee callee → outer.callee callee

mutual

/-- An expression refers to nothing that is not granted. -/
def Expr.Refers (granted : References) : Expr → Prop
  | .const _ => True
  | .read var => granted.var var
  | .element var index => granted.var var ∧ index.Refers granted
  | .call callee args => granted.callee callee ∧ Expr.RefersAll granted args
  | .unary _ operand => operand.Refers granted
  | .binary _ left right => left.Refers granted ∧ right.Refers granted

/-- Expressions refer to nothing that is not granted. -/
def Expr.RefersAll (granted : References) : List Expr → Prop
  | [] => True
  | first :: rest => first.Refers granted ∧ Expr.RefersAll granted rest

end

/-- A place refers to nothing that is not granted. -/
def Place.Refers (granted : References) (place : Place) : Prop :=
  granted.var place.var ∧ ∀ index, place.index = some index → index.Refers granted

mutual

/-- A statement refers to nothing that is not granted. -/
def Stmt.Refers (granted : References) : Stmt → Prop
  | .letVar id value =>
    granted.var (.localVar id) ∧ ∀ expr, value = some expr → expr.Refers granted
  | .yield _ => True
  | .waitUntil condition _ _ => condition.Refers granted
  | .call callee args _ => granted.subroutine callee ∧ Expr.RefersAll granted args
  | .ifThen condition taken otherwise =>
    condition.Refers granted ∧ Stmt.RefersAll granted taken ∧ Stmt.RefersAll granted otherwise
  | .whileLoop condition body => condition.Refers granted ∧ Stmt.RefersAll granted body
  | .loop body => Stmt.RefersAll granted body
  | .breakLoop => True
  | .continueLoop => True
  | .returnFrom value => ∀ expr, value = some expr → expr.Refers granted
  | .assign place _ value => place.Refers granted ∧ value.Refers granted
  | .eval expr => expr.Refers granted

/-- Statements refer to nothing that is not granted. -/
def Stmt.RefersAll (granted : References) : List Stmt → Prop
  | [] => True
  | first :: rest => first.Refers granted ∧ Stmt.RefersAll granted rest

end

/-- An instruction refers to nothing that is not granted. -/
def Instr.Refers (granted : References) : Instr → Prop
  | .jumpIfFalse condition _ => condition.Refers granted
  | .assign place _ value => place.Refers granted ∧ value.Refers granted
  | .eval expr => expr.Refers granted
  | .returnUnless condition _ => condition.Refers granted
  | .drive callee => granted.subroutine callee
  | .returnFrom value => ∀ expr, value = some expr → expr.Refers granted
  | _ => True

/-! ## More that is granted -/

section Within

variable {inner outer : References} {rename : Var → Var}

mutual

/-- An expression refers to its variables where they are kept. -/
theorem Expr.Refers.mapVars (within : inner.Within outer rename) {expr : Expr}
    (refers : expr.Refers inner) : (expr.mapVars rename).Refers outer := by
  -- Only variables are renamed; whatever is called is called by the same name.
  cases expr with
  | const value => trivial
  | read var => exact within.var var refers
  | element var index =>
    exact ⟨within.var var refers.1, Expr.Refers.mapVars within refers.2⟩
  | call callee args =>
    exact ⟨within.callee callee refers.1, Expr.RefersAll.mapVars within refers.2⟩
  | unary op operand =>
    have known : operand.Refers inner := refers
    have kept := Expr.Refers.mapVars within known
    exact kept
  | binary op left right =>
    exact ⟨Expr.Refers.mapVars within refers.1, Expr.Refers.mapVars within refers.2⟩

/-- So do all expressions of a list. -/
theorem Expr.RefersAll.mapVars (within : inner.Within outer rename) {exprs : List Expr}
    (refers : Expr.RefersAll inner exprs) :
    Expr.RefersAll outer (Expr.mapVarsAll rename exprs) := by
  cases exprs with
  | nil => trivial
  | cons first rest =>
    exact ⟨Expr.Refers.mapVars within refers.1, Expr.RefersAll.mapVars within refers.2⟩

end

/-- So does a place. -/
theorem Place.Refers.mapVars (within : inner.Within outer rename) {place : Place}
    (refers : place.Refers inner) : (place.mapVars rename).Refers outer := by
  refine ⟨within.var _ refers.1, fun index present => ?_⟩
  obtain ⟨written, found, rfl⟩ := Option.map_eq_some_iff.mp present
  exact (refers.2 written found).mapVars within

variable (within : inner.Within outer id)

include within

/-- What an expression is granted, it is granted along with more. -/
theorem Expr.Refers.mono {expr : Expr} (refers : expr.Refers inner) : expr.Refers outer :=
  Expr.mapVars_id expr ▸ refers.mapVars within

/-- The same for a place. -/
theorem Place.Refers.mono {place : Place} (refers : place.Refers inner) : place.Refers outer :=
  Place.mapVars_id place ▸ refers.mapVars within

/-- The same for an instruction. -/
theorem Instr.Refers.mono {instr : Instr}
    (drives : ∀ callee, instr = .drive callee → inner.subroutine callee → outer.subroutine callee)
    (refers : instr.Refers inner) : instr.Refers outer := by
  cases instr with
  | jumpIfFalse condition label | eval expr | returnUnless condition hint =>
    exact Expr.Refers.mono within refers
  | assign place op value => exact ⟨refers.1.mono within, refers.2.mono within⟩
  | drive callee => exact drives callee rfl refers
  | returnFrom value => exact fun expr present => (refers expr present).mono within
  -- All other instructions refer to nothing.
  | _ => trivial

end Within

/-! ## Two grants at once -/

/-- What both of two grants allow. -/
def References.both (left right : References) : References where
  var var := left.var var ∧ right.var var
  callee callee := left.callee callee ∧ right.callee callee
  subroutine callee := left.subroutine callee ∧ right.subroutine callee

/-- What is granted twice is granted by a third one. -/
structure References.Join (left right outer : References) : Prop where
  var : ∀ {var}, left.var var → right.var var → outer.var var
  callee : ∀ {callee}, left.callee callee → right.callee callee → outer.callee callee
  subroutine : ∀ {callee},
    left.subroutine callee → right.subroutine callee → outer.subroutine callee

section Join

variable {left right outer : References}

mutual

/-- What an expression is granted twice, it is granted at once. -/
theorem Expr.Refers.join (joins : left.Join right outer) {expr : Expr}
    (first : expr.Refers left) (second : expr.Refers right) : expr.Refers outer := by
  cases expr with
  | const value => trivial
  | read var => exact joins.var first second
  | element var index =>
    exact ⟨joins.var first.1 second.1, Expr.Refers.join joins first.2 second.2⟩
  | call callee args =>
    exact ⟨joins.callee first.1 second.1, Expr.RefersAll.join joins first.2 second.2⟩
  | unary op operand =>
    have one : operand.Refers left := first
    have two : operand.Refers right := second
    have joined := Expr.Refers.join joins one two
    exact joined
  | binary op left right =>
    exact ⟨Expr.Refers.join joins first.1 second.1, Expr.Refers.join joins first.2 second.2⟩

/-- The same for expressions of a list. -/
theorem Expr.RefersAll.join (joins : left.Join right outer) {exprs : List Expr}
    (first : Expr.RefersAll left exprs) (second : Expr.RefersAll right exprs) :
    Expr.RefersAll outer exprs := by
  cases exprs with
  | nil => trivial
  | cons head tail =>
    exact ⟨Expr.Refers.join joins first.1 second.1, Expr.RefersAll.join joins first.2 second.2⟩

end

/-- The same for a place. -/
theorem Place.Refers.join (joins : left.Join right outer) {place : Place}
    (first : place.Refers left) (second : place.Refers right) : place.Refers outer :=
  ⟨joins.var first.1 second.1, fun index present =>
    (first.2 index present).join joins (second.2 index present)⟩

mutual

/-- What a statement is granted twice, it is granted at once. -/
theorem Stmt.Refers.join (joins : left.Join right outer) {statement : Stmt}
    (first : statement.Refers left) (second : statement.Refers right) :
    statement.Refers outer := by
  cases statement with
  | letVar id value =>
    exact ⟨joins.var first.1 second.1, fun expr present =>
      (first.2 expr present).join joins (second.2 expr present)⟩
  | waitUntil condition hint location | eval expr => exact Expr.Refers.join joins first second
  | call callee args location =>
    exact ⟨joins.subroutine first.1 second.1, first.2.join joins second.2⟩
  | ifThen condition taken otherwise =>
    have early := Stmt.RefersAll.join joins first.2.1 second.2.1
    have late := Stmt.RefersAll.join joins first.2.2 second.2.2
    exact ⟨first.1.join joins second.1, early, late⟩
  | whileLoop condition body =>
    exact ⟨first.1.join joins second.1, Stmt.RefersAll.join joins first.2 second.2⟩
  | loop body =>
    have one : Stmt.RefersAll left body := first
    have two : Stmt.RefersAll right body := second
    have joined := Stmt.RefersAll.join joins one two
    exact joined
  | returnFrom value =>
    exact fun expr present => (first expr present).join joins (second expr present)
  | assign place op value => exact ⟨first.1.join joins second.1, first.2.join joins second.2⟩
  -- All other statements refer to nothing.
  | _ => trivial

/-- The same for statements of a list. -/
theorem Stmt.RefersAll.join (joins : left.Join right outer) {statements : List Stmt}
    (first : Stmt.RefersAll left statements) (second : Stmt.RefersAll right statements) :
    Stmt.RefersAll outer statements := by
  cases statements with
  | nil => trivial
  | cons head tail =>
    exact ⟨Stmt.Refers.join joins first.1 second.1, Stmt.RefersAll.join joins first.2 second.2⟩

end

theorem Stmt.RefersAll.both {statements : List Stmt} (first : Stmt.RefersAll left statements)
    (second : Stmt.RefersAll right statements) : Stmt.RefersAll (left.both right) statements :=
  first.join ⟨And.intro, And.intro, And.intro⟩ second

theorem Stmt.RefersAll.mono (within : left.Within outer id)
    (calls : ∀ callee, left.subroutine callee → outer.subroutine callee)
    {statements : List Stmt} (refers : Stmt.RefersAll left statements) :
    Stmt.RefersAll outer statements :=
  refers.join ⟨fun known _ => within.var _ known, fun known _ => within.callee _ known,
    fun known _ => calls _ known⟩ refers

end Join

/-! ## Well-formed bodies -/

/-- What a well-formed body can refer to in its setting. -/
def BodySetting.references (setting : BodySetting) : References where
  var var := ∃ indexed, setting.shapes.Allows setting.locals indexed var
  callee callee := ∃ count used, setting.shapes.Takes count used callee
  subroutine callee := ∃ caller count, setting.caller = some caller ∧
    setting.shapes.CanCall caller callee count

section WellFormed

variable {setting : BodySetting}

mutual

/-- A well-formed expression refers to what its setting has. -/
theorem Expr.WellFormed.refers {expr : Expr} (formed : expr.WellFormed setting) :
    expr.Refers setting.references := by
  cases expr with
  | const value => trivial
  | read var => exact ⟨false, formed⟩
  | element var index => exact ⟨⟨true, formed.1⟩, Expr.WellFormed.refers formed.2⟩
  | call callee args => exact ⟨⟨_, _, formed.1⟩, Expr.WellFormedAll.refers formed.2⟩
  | unary op operand =>
    have inner : operand.WellFormed setting := formed
    have known := Expr.WellFormed.refers inner
    exact known
  | binary op left right =>
    exact ⟨Expr.WellFormed.refers formed.1, Expr.WellFormed.refers formed.2⟩

/-- So do all expressions of a list. -/
theorem Expr.WellFormedAll.refers {exprs : List Expr} (formed : Expr.WellFormedAll setting exprs) :
    Expr.RefersAll setting.references exprs := by
  cases exprs with
  | nil => trivial
  | cons first rest =>
    exact ⟨Expr.WellFormed.refers formed.1, Expr.WellFormedAll.refers formed.2⟩

end

theorem Expr.WellFormedAlone.refers {expr : Expr} (formed : expr.WellFormedAlone setting) :
    expr.Refers setting.references := by
  cases expr with
  | call callee args => exact ⟨⟨_, _, formed.1⟩, formed.2.refers⟩
  | _ => exact Expr.WellFormed.refers formed

/-- So does a place. -/
theorem Place.WellFormed.refers {place : Place} (formed : place.WellFormed setting) :
    place.Refers setting.references :=
  ⟨⟨_, formed.1⟩, fun index present => (formed.2 index present).refers⟩

mutual

/-- A well-formed statement refers to what its setting has. -/
theorem Stmt.WellFormed.refers {inLoop : Bool} {statement : Stmt}
    (formed : statement.WellFormed setting inLoop) : statement.Refers setting.references := by
  cases statement with
  | letVar id value =>
    obtain ⟨⟨length, found, -⟩, values⟩ := formed
    exact ⟨⟨_, length, found, rfl⟩, fun expr present => (values expr present).refers⟩
  | waitUntil condition hint location => exact Expr.WellFormed.refers formed.2
  | call callee args location =>
    obtain ⟨⟨caller, present, possible⟩, values⟩ := formed
    exact ⟨⟨caller, args.length, present, possible⟩, values.refers⟩
  | ifThen condition taken otherwise =>
    have first := Stmt.WellFormedAll.refers formed.2.1
    have second := Stmt.WellFormedAll.refers formed.2.2
    exact ⟨formed.1.refers, first, second⟩
  | whileLoop condition body => exact ⟨formed.1.refers, Stmt.WellFormedAll.refers formed.2⟩
  | loop body =>
    have inner : Stmt.WellFormedAll setting true body := formed
    have known := Stmt.WellFormedAll.refers inner
    exact known
  | returnFrom value => exact fun expr present => (formed.2 expr present).refers
  | assign place op value => exact ⟨formed.1.refers, formed.2.refers⟩
  | eval expr => exact Expr.WellFormedAlone.refers formed
  -- All other statements refer to nothing.
  | _ => trivial

/-- So do all statements of a list. -/
theorem Stmt.WellFormedAll.refers {inLoop : Bool} {statements : List Stmt}
    (formed : Stmt.WellFormedAll setting inLoop statements) :
    Stmt.RefersAll setting.references statements := by
  cases statements with
  | nil => trivial
  | cons first rest =>
    exact ⟨Stmt.WellFormed.refers formed.1, Stmt.WellFormedAll.refers formed.2⟩

end

end WellFormed

/-! ## Code -/

namespace BodyContext

variable {context : BodyContext} {inner outer : References}

/-- The code of a body finds its variables, and the parameters of what it calls, where they are. -/
structure Grants (context : BodyContext) (inner outer : References) : Prop where
  within : inner.Within outer context.rename
  subroutine : ∀ callee, inner.subroutine callee → outer.subroutine callee
  parameters : ∀ callee, inner.subroutine callee →
    ∀ parameter ∈ context.parameters callee, outer.var (.static parameter)

/-- Arguments are stored in the parameters of the callee. -/
theorem passArguments_refers (grants : context.Grants inner outer) {callee : CoroutineId}
    {args : List Expr} (callable : inner.subroutine callee)
    (refers : Expr.RefersAll inner args) :
    ∀ instr ∈ context.passArguments callee args, instr.Refers outer := by
  intro instr member
  obtain ⟨⟨parameter, arg⟩, paired, rfl⟩ := List.mem_map.mp member
  have target := grants.parameters callee callable parameter (List.of_mem_zip paired).1
  -- Among the arguments, each one refers to what all of them may.
  have value : arg.Refers inner := by
    have listed := (List.of_mem_zip paired).2
    clear paired member
    induction args with
    | nil => exact nomatch listed
    | cons first rest ih =>
      rcases List.mem_cons.mp listed with rfl | later
      · exact refers.1
      · exact ih refers.2 later
  exact ⟨⟨target, nofun⟩, value.mapVars grants.within⟩

mutual

/-- The code of a statement refers to what the statement does, where it is kept. -/
theorem code_refers (grants : context.Grants inner outer) (loop : Option LoopLabels)
    (label : Label) (point : Point) {statement : Stmt} (refers : statement.Refers inner) :
    ∀ instr ∈ context.code loop label point statement, instr.Refers outer := by
  cases statement with
  | letVar id value =>
    cases value with
    | none => exact nofun
    | some value =>
      intro instr member
      obtain rfl := List.mem_singleton.mp member
      exact ⟨⟨grants.within.var _ refers.1, nofun⟩, (refers.2 value rfl).mapVars grants.within⟩
  | yield location => simp [code, Instr.Refers]
  | waitUntil condition hint location =>
    have tested : (condition.mapVars context.rename).Refers outer :=
      Expr.Refers.mapVars grants.within refers
    simp [code, Instr.Refers, tested]
  | call callee args location =>
    intro instr member
    rcases List.mem_append.mp member with early | late
    · exact passArguments_refers grants refers.1 refers.2 instr early
    · simp only [List.mem_cons, List.not_mem_nil, or_false] at late
      rcases late with rfl | rfl | rfl
      · trivial
      · trivial
      · exact grants.subroutine callee refers.1
  | ifThen condition taken otherwise =>
    have tested := refers.1.mapVars grants.within
    have first := codes_refers grants loop (label + 1) point refers.2.1
    have second := codes_refers grants loop (label + 1 + Stmt.labelCounts taken + 1)
      (point + Stmt.pointCounts taken) refers.2.2
    intro instr member
    simp only [code, List.cons_append, List.mem_cons, List.mem_append] at member
    rcases member with rfl | inside | behind
    · exact tested
    · exact first instr inside
    · split at behind
      · obtain rfl := List.mem_singleton.mp behind
        trivial
      · simp only [List.nil_append, List.mem_append, List.mem_cons, List.not_mem_nil,
          or_false] at behind
        rcases behind with rfl | rfl | inside | rfl
        · trivial
        · trivial
        · exact second instr inside
        · trivial
  | whileLoop condition body =>
    have tested := refers.1.mapVars grants.within
    have round := codes_refers grants (some ⟨label, label + 1⟩) (label + 2) point refers.2
    intro instr member
    simp only [code, List.mem_append, List.mem_cons, List.not_mem_nil, or_false] at member
    rcases member with ((rfl | rfl) | inside) | rfl | rfl
    · trivial
    · exact tested
    · exact round instr inside
    · trivial
    · trivial
  | loop body =>
    have known : Stmt.RefersAll inner body := refers
    have round := codes_refers grants (some ⟨label, label + 1⟩) (label + 2) point known
    intro instr member
    simp only [code, List.cons_append, List.mem_cons, List.mem_append, List.not_mem_nil,
      or_false] at member
    rcases member with rfl | (inside | rfl) | behind
    · trivial
    · exact round instr inside
    · trivial
    · split at behind
      · obtain rfl := List.mem_singleton.mp behind
        trivial
      · exact nomatch behind
  | breakLoop | continueLoop => cases loop <;> simp [code, Instr.Refers]
  | returnFrom value =>
    intro instr member
    simp only [code] at member
    split at member
    · obtain rfl := List.mem_singleton.mp member
      trivial
    · obtain rfl := List.mem_singleton.mp member
      intro expr present
      obtain ⟨written, found, rfl⟩ := Option.map_eq_some_iff.mp present
      exact (refers written found).mapVars grants.within
  | assign place op value =>
    intro instr member
    obtain rfl := List.mem_singleton.mp member
    exact ⟨refers.1.mapVars grants.within, refers.2.mapVars grants.within⟩
  | eval expr =>
    intro instr member
    obtain rfl := List.mem_singleton.mp member
    exact Expr.Refers.mapVars grants.within refers

/-- So does the code of a list of statements. -/
theorem codes_refers (grants : context.Grants inner outer) (loop : Option LoopLabels)
    (label : Label) (point : Point) {statements : List Stmt}
    (refers : Stmt.RefersAll inner statements) :
    ∀ instr ∈ context.codes loop label point statements, instr.Refers outer := by
  cases statements with
  | nil => exact nofun
  | cons first rest =>
    have early := code_refers grants loop label point refers.1
    have late := codes_refers grants loop (label + first.labelCount) (point + first.pointCount)
      refers.2
    intro instr member
    rcases List.mem_append.mp member with here | there
    · exact early instr here
    · exact late instr there

end

end BodyContext

/-! ## The bodies of a program -/

/-- Statements with their local variables, the first of which are the parameters. -/
structure Body where
  locals : List Local
  arity : Nat
  statements : List Stmt

/-- The body of an entity. -/
def Model.body? (model : Model) : Owner → Option Body
  | .global => none
  | .coroutine id =>
    -- The parameters of a coroutine are static variables.
    model.coroutines[id]?.map fun coroutine => ⟨coroutine.locals, 0, coroutine.body⟩
  | .function id =>
    model.functions[id]?.map fun function => ⟨function.locals, function.arity, function.body⟩
  | .hook id => model.hooks[id]?.map fun hook => ⟨hook.locals, 0, hook.body⟩
  | .entry => some ⟨model.entry.locals, 0, model.entry.body⟩

/-- The code of the body of an entity. -/
def Program.code? (program : Program) : Owner → Option Code
  | .global => none
  | .coroutine id => program.coroutines[id]?.map StateMachine.code
  | .function id => program.functions[id]?
  | .hook id => program.hooks[id]?
  | .entry => some program.entry

/-- The coroutine that a body belongs to, if it belongs to one. -/
def Owner.coroutine? : Owner → Option CoroutineId
  | .coroutine id => some id
  | _ => none

/-- What stands behind the code of all statements of a body. -/
def Owner.ending : Owner → Code
  | .coroutine _ => [.finish]
  | _ => []

/-- The local variables of a body while it runs; those of a coroutine are kept elsewhere. -/
def Body.framed (body : Body) : Owner → List Local
  | .coroutine _ => []
  | _ => body.locals

namespace Model

variable {model : Model} {program : Program} {owner : Owner} {body : Body} {code : Code}

/-- What the code of a body depends on. -/
def contextOf (model : Model) : Owner → BodyContext
  | .coroutine id => model.coroutineContext id
  | _ => model.routineContext

/-- All bodies pass arguments in the same way. -/
@[simp] theorem contextOf_parameters (owner : Owner) :
    (model.contextOf owner).parameters = model.parameters := by
  cases owner <;> rfl

/-- The code of a coroutine has the static variable that keeps a local one. -/
theorem contextOf_local {id : CoroutineId} {coroutine : Coroutine}
    (found : model.coroutines[id]? = some coroutine) {place : LocalId}
    (small : place < coroutine.locals.length) :
    (model.contextOf (.coroutine id)).rename (.localVar place) =
      .static (model.firstHoisted id + place) :=
  hoistOwn_local found small

/-- All bodies of a well-formed model are well formed. -/
theorem WellFormed.statementsOf (formed : model.WellFormed)
    (found : model.body? owner = some body) :
    ∃ valued, Stmt.WellFormedAll
      ⟨model.shapes, body.locals.map Local.length, owner.coroutine?, valued⟩ false
      body.statements := by
  cases owner with
  | global => exact nomatch found
  | coroutine id =>
    obtain ⟨coroutine, known, rfl⟩ := Option.map_eq_some_iff.mp found
    exact ⟨_, (formed.coroutines id coroutine known).body.statements⟩
  | function id =>
    obtain ⟨function, known, rfl⟩ := Option.map_eq_some_iff.mp found
    exact ⟨_, (formed.functions function (List.mem_of_getElem? known)).body.statements⟩
  | hook id =>
    obtain ⟨hook, known, rfl⟩ := Option.map_eq_some_iff.mp found
    exact ⟨_, (formed.hooks hook (List.mem_of_getElem? known)).statements⟩
  | entry =>
    obtain rfl := Option.some.inj found
    exact ⟨_, formed.entry.statements⟩

variable (lowered : model.LowersTo program) (found : program.code? owner = some code)

include lowered found

/-- The code of an entity is the one of its body, and the end of it if it is a coroutine. -/
theorem LowersTo.code?_eq :
    ∃ body, model.body? owner = some body ∧
      code = (model.contextOf owner).codes none 0 0 body.statements ++ owner.ending := by
  cases owner with
  | global => exact nomatch found
  | coroutine id =>
    obtain ⟨machine, known, rfl⟩ := Option.map_eq_some_iff.mp found
    rw [lowered.coroutines] at known
    obtain ⟨coroutine, listed, rfl⟩ := Option.map_eq_some_iff.mp known
    exact ⟨_, Option.map_eq_some_iff.mpr ⟨coroutine, listed, rfl⟩, rfl⟩
  | function id =>
    rw [Program.code?, lowered.functions, List.getElem?_map] at found
    obtain ⟨function, known, rfl⟩ := Option.map_eq_some_iff.mp found
    exact ⟨_, Option.map_eq_some_iff.mpr ⟨function, known, rfl⟩, (List.append_nil _).symm⟩
  | hook id =>
    rw [Program.code?, lowered.hooks, List.getElem?_map] at found
    obtain ⟨hook, known, rfl⟩ := Option.map_eq_some_iff.mp found
    exact ⟨_, Option.map_eq_some_iff.mpr ⟨hook, known, rfl⟩, (List.append_nil _).symm⟩
  | entry =>
    obtain rfl := Option.some.inj found
    rw [lowered.entry]
    exact ⟨_, rfl, (List.append_nil _).symm⟩

/-- The code of an entity refers to what its body does, where it is kept. -/
theorem LowersTo.refers {inner outer : References} (known : model.body? owner = some body)
    (refers : Stmt.RefersAll inner body.statements)
    (grants : (model.contextOf owner).Grants inner outer) : ∀ instr ∈ code, instr.Refers outer := by
  obtain ⟨source, same, rfl⟩ := lowered.code?_eq found
  obtain rfl := Option.some.inj (known.symm.trans same)
  intro instr member
  rcases List.mem_append.mp member with inside | last
  · exact BodyContext.codes_refers grants none 0 0 refers instr inside
  · -- The end of a coroutine is the only instruction that no statement stands for.
    cases owner with
    | coroutine id =>
      obtain rfl := List.mem_singleton.mp last
      trivial
    | _ => exact absurd last List.not_mem_nil

end Model

end Coro
