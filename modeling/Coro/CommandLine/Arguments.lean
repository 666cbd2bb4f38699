import Coro.CommandLine.PassCount
import Coro.Target

/-! Reading the arguments of the command line. -/

namespace Coro.CommandLine

/-- The options. -/
inductive Opt where
  | target | output | flags | simulate | check | help | version
deriving Repr, DecidableEq, Inhabited

namespace Opt

/-- The option with a given long name. -/
def ofLong? : String → Option Opt
  | "target" => some target
  | "output" => some output
  | "flags" => some flags
  | "simulate" => some simulate
  | "check" => some check
  | "help" => some help
  | "version" => some version
  | _ => none

/-- The option with a given short name. -/
def ofShort? : Char → Option Opt
  | 't' => some target
  | 'o' => some output
  | 'h' => some help
  | 'V' => some version
  | _ => none

/-- Options that come with a value. -/
def takesValue : Opt → Bool
  | target | output | flags | simulate => true
  | check | help | version => false

end Opt

/-- Why the arguments ask for no compilation. -/
inductive Refusal where
  | help
  | version
  | misuse
deriving Repr, DecidableEq, Inhabited

/-- What the arguments have given so far. -/
structure Given where
  input : Option String
  /-- Options with their values, which are empty where there is none. -/
  options : List (Opt × String)
  /-- An option that waits for its value. -/
  waiting : Option Opt
  /-- Some option did not get its value. -/
  incomplete : Bool
  /-- Options are no longer looked for. -/
  plain : Bool
deriving Repr, Inhabited

namespace Given

/-- Nothing given. -/
def none : Given := ⟨Option.none, [], Option.none, false, false⟩

/-- No value comes for the option that waits for one. -/
def giveUp (given : Given) : Given :=
  { given with waiting := Option.none, incomplete := given.incomplete || given.waiting.isSome }

/-- An option with its value. -/
def add (given : Given) (opt : Opt) (value : String) : Given :=
  { given.giveUp with options := given.options ++ [(opt, value)] }

/-- An option whose value is to come. -/
def await (given : Given) (opt : Opt) : Given :=
  { given.giveUp with waiting := some opt }

/-- An argument that is no option: the input, of which there is one. -/
def positional (given : Given) (argument : String) : Except Refusal Given :=
  match given.input with
  | some _ => throw .misuse
  | Option.none => return { given.giveUp with input := some argument }

/-- An option without a value. -/
def switch (given : Given) : Opt → Except Refusal Given
  | .help => throw .help
  | .version => throw .version
  | opt => return given.add opt ""

/-- An option under its long name, perhaps with a value behind an equals sign. -/
def long (given : Given) (argument : List Char) : Except Refusal Given :=
  let name := String.ofList (argument.takeWhile (· != '='))
  match Opt.ofLong? name, argument.dropWhile (· != '=') with
  | Option.none, _ => throw .misuse
  | some opt, [] => if opt.takesValue then return given.await opt else given.switch opt
  | some opt, _ :: value =>
    if opt.takesValue then return given.add opt (String.ofList value) else throw .misuse

/-- Options under their short names; what follows one that takes a value is its value. -/
def short (given : Given) : List Char → Except Refusal Given
  | [] => return given
  | c :: rest =>
    match Opt.ofShort? c with
    | Option.none => throw .misuse
    | some opt =>
      if opt.takesValue then
        match rest with
        | [] => return given.await opt
        -- An equals sign before the value is left out.
        | '=' :: value => return given.add opt (String.ofList value)
        | value => return given.add opt (String.ofList value)
      else do (← given.switch opt).short rest

/-- One more argument. -/
def next (given : Given) (argument : String) : Except Refusal Given :=
  if given.plain then given.positional argument
  else
    -- What looks like an option is never taken for a value, but a lone dash may be.
    match argument.toList with
    | ['-', '-'] => return { given.giveUp with plain := true }
    | '-' :: '-' :: rest => given.long rest
    | '-' :: first :: rest => given.short (first :: rest)
    | _ =>
      match given.waiting with
      | some opt => return { given with
          waiting := Option.none
          options := given.options ++ [(opt, argument)] }
      | Option.none => given.positional argument

/-- All arguments in turn. -/
def all (given : Given) : List String → Except Refusal Given
  | [] => return given.giveUp
  | argument :: rest => do (← given.next argument).all rest

/-- The values that an option was given. -/
def valuesOf (given : Given) (opt : Opt) : List String :=
  (given.options.filter fun (known, _) => known = opt).map Prod.snd

end Given

/-- What is to be done, and with which files. -/
structure Invocation where
  /-- The path of the description, or a dash. -/
  input : String
  /-- The path of the generated file, or a dash. -/
  output : String
  target : Target
  /-- The path of the file of flags. -/
  flags : Option String
  /-- Nothing but diagnostics is wanted. -/
  check : Bool
  /-- How long to simulate the program instead of generating a file, as it was written. -/
  passes : Option String
deriving Repr, Inhabited

/-- The value of an option that may be given once. -/
def single (given : Given) (opt : Opt) : Except Refusal (Option String) :=
  match given.valuesOf opt with
  | [] => return none
  | [value] => return some value
  | _ => throw .misuse

/-- The target that a name on the command line stands for. -/
def targetNamed : String → Except Refusal Target
  | "avr" => return .avr
  | "hosted" => return .hosted
  | _ => throw .misuse

/-- Reads the arguments. -/
def readArguments (arguments : List String) : Except Refusal Invocation := do
  let given ← Given.none.all arguments
  let target ← single given .target
  let output ← single given .output
  let flags ← single given .flags
  let check ← single given .check
  let passes ← single given .simulate
  let target ← targetNamed (target.getD "avr")
  if given.incomplete || (check.isSome && passes.isSome) then throw .misuse
  match given.input with
  | none => throw .misuse
  | some input => return ⟨input, output.getD "-", target, flags, check.isSome, passes⟩

end Coro.CommandLine
