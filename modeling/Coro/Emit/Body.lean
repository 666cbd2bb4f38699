import Coro.Emit.Expr
import Coro.Emit.Symbol
import Coro.Target

/-! Functions of the generated file. -/

namespace Coro.Emit

/-- The lines of one instruction; only coroutines have a state to change. -/
def instrLines (program : Program) (names : Names) (self : Option CoroutineId) :
    Instr → List String
  | .setLabel label => [labelSymbol label ++ ":;"]
  | .jump label => ["goto " ++ labelSymbol label ++ ";"]
  | .jumpIfFalse condition label =>
    ["if (!" ++ exprText names condition ++ ") goto " ++ labelSymbol label ++ ";"]
  | .assign place op value =>
    let sign := (op.map BinaryOp.symbol).getD ""
    [placeText names place ++ " " ++ sign ++ "= " ++ exprText names value ++ ";"]
  | .eval expr => [exprText names expr ++ ";"]
  | .setState point =>
    match self with
    | some id => [stateSymbol program id ++ " = " ++ toString (stateAt point) ++ ";"]
    | none => []
  | .suspend => ["return;"]
  | .resume point => [resumeSymbol point ++ ":;"]
  | .returnUnless condition hint =>
    -- The hint speaks of the condition, while the test is on its negation.
    let negated := "!" ++ exprText names condition
    let hinted := match hint with
      | none => negated
      | some .likely => "HILOS_UNLIKELY(" ++ negated ++ ")"
      | some .unlikely => "HILOS_LIKELY(" ++ negated ++ ")"
    ["if (" ++ hinted ++ ") return;"]
  | .drive callee =>
    -- The end is seen once: the next call finds the subroutine at its start.
    let state := stateSymbol program callee
    let width := (program.coroutines.getD callee default).width
    [stepSymbol program callee ++ "();",
     "if (" ++ state ++ " != " ++ toString width.endState ++ ") return;",
     state ++ " = 0;"]
  | .finish =>
    match self with
    | some id =>
      -- A thread is ready to start again, a subroutine waits for its caller.
      let final :=
        if (program.model.coroutines.getD id default).isThread then startState
        else (program.coroutines.getD id default).width.endState
      [stateSymbol program id ++ " = " ++ toString final ++ ";", "return;"]
    | none => ["return;"]
  | .returnFrom none => ["return;"]
  | .returnFrom (some value) => ["return " ++ exprText names value ++ ";"]

/-- The lines of code. -/
def codeLines (program : Program) (names : Names) (self : Option CoroutineId) (code : Code) :
    List String :=
  code.flatMap (instrLines program names self)

/-- The declarations of local variables. -/
def localLines (target : Target) (locals : List Local) : List String :=
  locals.map fun known =>
    let length := (known.length.map fun length => "[" ++ toString length ++ "]").getD ""
    target.storageType known.type ++ " " ++ known.name ++ length ++ ";"

/-- The attributes of a function, which is forced inline on demand or by default. -/
def attributes (tuning : Tuning) (inlined : Bool) : String :=
  (if tuning.isPure then "HILOS_PURE " else "") ++
  if tuning.noInline then "HILOS_NO_INLINE "
  else if inlined || tuning.alwaysInline then "HILOS_FORCE_INLINE "
  else ""

/-- The signature of a function. -/
def functionSignature (target : Target) (function : Function) : String :=
  let returns := (function.returns.map target.storageType).getD "void"
  let parameters := (function.locals.take function.arity).map fun known =>
    target.storageType known.type ++ " " ++ known.name
  "static " ++ attributes function.tuning false ++ returns ++ " " ++ function.name ++ "(" ++
    (if parameters.isEmpty then "void" else ", ".intercalate parameters) ++ ")"

/-- The signature of a function without parameters and result. -/
def procedureSignature (attributes symbol : String) : String :=
  "static " ++ attributes ++ "void " ++ symbol ++ "(void)"

/-- The signature of a hook; hooks of every pass are inlined. -/
def hookSignature (program : Program) (id : HookId) : String :=
  let hook := program.model.hooks.getD id default
  procedureSignature (attributes hook.tuning (hook.kind = .runnable)) (hookSymbol program id)

/-- The signature of a step function; those of threads are inlined. -/
def stepSignature (program : Program) (id : CoroutineId) : String :=
  let coroutine := program.model.coroutines.getD id default
  procedureSignature (attributes coroutine.tuning coroutine.isThread) (stepSymbol program id)

/-- The signature of the entry point. -/
def entrySignature : String :=
  procedureSignature "" entrySymbol

/-- A line one level further in. -/
def indent (line : String) : String :=
  "\t" ++ line

/-- A function with the lines of its body. -/
def definition (signature : String) (body : List String) : List String :=
  [signature, "\x7b"] ++ body.map indent ++ ["\x7d", ""]

/-- The definition of a function. -/
def functionLines (target : Target) (program : Program) (function : Function) (code : Code) :
    List String :=
  let names := Names.ofLocals program.model function.locals
  definition (functionSignature target function)
    (localLines target (function.locals.drop function.arity) ++
      codeLines program names none code)

/-- The definition of a function for code with nothing but local variables. -/
def procedureLines (target : Target) (program : Program) (signature : String)
    (locals : List Local) (code : Code) : List String :=
  definition signature
    (localLines target locals ++ codeLines program (.ofLocals program.model locals) none code)

/-- The jump to where a coroutine was suspended. -/
def resumeLines (program : Program) (id : CoroutineId) (machine : StateMachine) : List String :=
  -- Without points there is only one place to start from.
  if machine.points.isEmpty then []
  else
    let cases := (List.range machine.points.length).map fun point =>
      "case " ++ toString (stateAt point) ++ ": goto " ++ resumeSymbol point ++ ";"
    ["switch (" ++ stateSymbol program id ++ ") \x7b"] ++ cases ++ ["default: break;", "\x7d"]

/-- The step function of a coroutine. -/
def stepLines (program : Program) (id : CoroutineId) (machine : StateMachine) : List String :=
  -- A blank line parts the jump from the code.
  let resume := resumeLines program id machine
  let code := codeLines program (.ofLocals program.model []) (some id) machine.code
  [stepSignature program id, "\x7b"] ++
    (if resume.isEmpty then [] else resume.map indent ++ [""]) ++
    code.map indent ++ ["\x7d", ""]

end Coro.Emit
