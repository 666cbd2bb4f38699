import Coro.CommandLine.Arguments
import Coro.CommandLine.Simulation
import Coro.Compilation

/-! What the command line does: texts to show and files to write, in order. -/

namespace Coro.CommandLine

/-- One thing to do. -/
inductive Action where
  /-- Shows a result. -/
  | print (text : String)
  /-- Shows a diagnostic. -/
  | complain (text : String)
  /-- Writes a file; when that fails, this was the matter and nothing more is done. -/
  | write (path text matter : String)
deriving Repr, DecidableEq, Inhabited

/-- What is done, and the exit code when all of it works. -/
structure Response where
  actions : List Action
  exit : Nat
deriving Repr, Inhabited

/-- The report on what went wrong, with its cause. -/
def errorText (matter : String) (cause : Option String) : String :=
  "Error: " ++ matter ++ "\n" ++
    match cause with
    | some cause => "\nCaused by:\n    " ++ cause ++ "\n"
    | none => ""

/-- Nothing is done because something went wrong. -/
def Response.error (matter : String) (cause : Option String) : Response :=
  ⟨[.complain (errorText matter cause)], 1⟩

/-- The help text. -/
def helpText : String :=
  "hilos 1.0.0\n" ++
  "Compiles cooperative stackless coroutines to plain C\n\n" ++
  "USAGE:\n" ++
  "    hilos [OPTIONS] <INPUT>\n\n" ++
  "ARGS:\n" ++
  "    <INPUT>    Coroutine description ('-' for stdin)\n\n" ++
  "OPTIONS:\n" ++
  "        --check                Only report diagnostics, emit nothing\n" ++
  "        --flags <FILE>         Write the compiler flags artifact to this path\n" ++
  "    -h, --help                 Print help information\n" ++
  "    -o, --output <FILE>        Generated C file ('-' for stdout) [default: -]\n" ++
  "        --simulate <PASSES>    Run the program in the reference executor instead of emitting C\n" ++
  "    -t, --target <ARCH>        Target architecture [default: avr] [possible values: avr, hosted]\n" ++
  "    -V, --version              Print version information\n"

/-- What is done when no compilation is asked for. -/
def Refusal.response : Refusal → Response
  | help => ⟨[.print helpText], 0⟩
  | version => ⟨[.print "hilos 1.0.0\n"], 0⟩
  | misuse => ⟨[.complain "error: Invalid arguments\n\nFor more information try --help\n"], 2⟩

/-- A path with its last name replaced. -/
def besidePath (path name : String) : String :=
  -- All behind the last slash is the last name.
  String.ofList ((path.toList.reverse.dropWhile (· != '/')).reverse ++ name.toList)

/-- Where the flags go, if anywhere: a given path, or beside the generated file. -/
def Invocation.flagsPath? (invocation : Invocation) (compiled : Compiled) : Option String :=
  match invocation.flags, compiled.flagsName? with
  | some path, _ => some path
  | none, some name =>
    some (if invocation.output = "-" then name else besidePath invocation.output name)
  | none, none => none

/-- The actions that put out a compiled program. -/
def Invocation.emission (invocation : Invocation) (compiled : Compiled) : List Action :=
  let output := invocation.output
  let file := if output = "-" then .print compiled.text
    else .write output compiled.text ("Failed to open for writing: " ++ output)
  let flags := (invocation.flagsPath? compiled).map fun path =>
    .write path compiled.flags ("Failed to write flags to: " ++ path)
  file :: flags.toList

/-- What is done with a source, for a number of passes if it is to be simulated. -/
def Invocation.response (invocation : Invocation) (passes : Option Nat) (source : Source) :
    Response :=
  match source.compile invocation.target with
  | .error failure =>
    ⟨[.complain (failure.report.render source),
      .complain (errorText ("Compilation of " ++ invocation.input ++ " failed") none)], 1⟩
  | .ok compiled =>
    -- Warnings are shown whatever is done with the program.
    let warnings := (compiled.report?.map fun report => .complain (report.render source)).toList
    if invocation.check then ⟨warnings, 0⟩
    else
      match passes with
      | none => ⟨warnings ++ invocation.emission compiled, 0⟩
      | some passes =>
        match simulation compiled.program passes with
        | .ok shown => ⟨warnings ++ [.print shown], 0⟩
        | .error (matter, cause) => ⟨warnings ++ [.complain (errorText matter cause)], 1⟩

/-- What the arguments ask for: a response, or the source that it depends on. -/
inductive Request where
  | answer (response : Response)
  | stdin (respond : Source → Response)
  | file (path : String) (respond : Source → Response)

/-- The name of the source that comes from standard input. -/
def stdinName : String := "<stdin>"

/-- The response when the source cannot be read. -/
def unreadable (path cause : String) : Response :=
  .error ("Failed to open for reading: " ++ path) cause

/-- What the arguments ask for. -/
def request (arguments : List String) : Request :=
  match readArguments arguments with
  | .error refusal => .answer refusal.response
  | .ok invocation =>
    let run (passes : Option Nat) : Request :=
      if invocation.input = "-" then .stdin (invocation.response passes)
      else .file invocation.input (invocation.response passes)
    match invocation.passes with
    | none => run none
    | some text =>
      -- The number is read before the source, so its fault comes first.
      match readCount text with
      | .ok passes => run (some passes)
      | .error error => .answer (.error ("Invalid pass count: " ++ text) error.message)

end Coro.CommandLine
