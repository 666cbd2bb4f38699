import Coro.Emit.Scheduler

/-! The whole generated file, and the compiler flags that go with it. -/

namespace Coro.Emit

/-- Definitions that every generated file starts with. -/
def preludeLines : List String :=
  ["#define HILOS_LIKELY(x) __builtin_expect(!!(x), 1)",
   "#define HILOS_UNLIKELY(x) __builtin_expect(!!(x), 0)",
   "#define HILOS_FORCE_INLINE __attribute__((always_inline)) inline",
   "#define HILOS_NO_INLINE __attribute__((noinline))",
   "#define HILOS_PURE __attribute__((pure))"]

/-- The declaration of a variable that is kept in registers. -/
def boundLine (type symbol : String) (binding : Binding) : String :=
  "register " ++ type ++ " " ++ symbol ++ " asm(\"" ++
    registerName (binding.registers.headD 0) ++ "\");"

/-- The declaration of a static variable; only global ones are visible from outside. -/
def staticLine (target : Target) (plan : Plan) (id : StaticId) (storage : StaticVariable) :
    String :=
  let type := target.storageType storage.type
  match plan.find? (.static id) with
  -- Registers take no initial value here, so the start of the program sets it.
  | some binding => boundLine type storage.path.symbol binding
  | none =>
    let length := (storage.length.map fun length => "[" ++ toString length ++ "]").getD ""
    let initial := (storage.initial.map fun value => " = " ++ toString value.toInt).getD ""
    (if storage.owner = .global then "" else "static ") ++
    (if storage.volatile then "volatile " else "") ++
    type ++ " " ++ storage.path.symbol ++ length ++ initial ++ ";"

/-- The declaration of the state of a coroutine. -/
def stateLine (target : Target) (program : Program) (plan : Plan) (id : CoroutineId)
    (machine : StateMachine) : String :=
  let type := target.storageType machine.width.type
  let symbol := stateSymbol program id
  match plan.find? (.state id) with
  | some binding => boundLine type symbol binding
  | none => "static " ++ type ++ " " ++ symbol ++ ";"

/-- The declarations of all variables. -/
def storageLines (target : Target) (program : Program) (plan : Plan) : List String :=
  (program.model.statics.mapIdx fun id storage => staticLine target plan id storage) ++
  (program.coroutines.mapIdx fun id machine => stateLine target program plan id machine) ++
  clockStorage target program.model

/-- The signatures of all functions. -/
def prototypeLines (target : Target) (program : Program) : List String :=
  -- All functions are announced, so the order of the definitions is free.
  (program.model.functions.map (functionSignature target) ++
    (List.range program.model.hooks.length).map (hookSignature program) ++
    (List.range program.coroutines.length).map (stepSignature program) ++
    [entrySignature]).map (· ++ ";")

/-- The definitions of all functions but the last. -/
def definitionLines (target : Target) (program : Program) : List String :=
  let model := program.model
  (model.functions.zip program.functions).flatMap
    (fun (function, code) => functionLines target program function code) ++
  (model.hooks.zip program.hooks).zipIdx.flatMap
    (fun ((hook, code), id) =>
      procedureLines target program (hookSignature program id) hook.locals code) ++
  program.coroutines.zipIdx.flatMap (fun (machine, id) => stepLines program id machine) ++
  procedureLines target program entrySignature model.entry.locals program.entry

/-- The lines of the generated file. -/
def fileLines (target : Target) (program : Program) (plan : Plan) (name : String) :
    List String :=
  ["/* Generated by hilos from " ++ name ++ ". Do not edit. */", "", "#include <stdint.h>"] ++
  (program.model.headers.map fun header => "#include <" ++ header ++ ">") ++
  [""] ++ preludeLines ++ [""] ++
  storageLines target program plan ++ [""] ++
  prototypeLines target program ++ [""] ++
  definitionLines target program ++
  mainLines program plan

/-- The generated file. -/
def fileText (target : Target) (program : Program) (plan : Plan) (name : String) : String :=
  String.join ((fileLines target program plan name).map (· ++ "\n"))

/-- The compiler option of a profile. -/
def profileFlag : Profile → String
  | .size => "-Os"
  | .speed => "-O2"

/-- The compiler flags: those of the profile and those that keep bound registers free. -/
def flagsText (target : Target) (program : Program) (plan : Plan) : String :=
  let profile := (program.model.flags.map FlagsRequest.profile).getD .size
  " ".intercalate (profileFlag profile :: (plan.fixed target).map fixedFlag) ++ "\n"

/-- The name of the file of flags, if one is asked for. -/
def flagsName? (program : Program) : Option String :=
  program.model.flags.map fun flags => flags.name ++ ".cflags"

end Coro.Emit
