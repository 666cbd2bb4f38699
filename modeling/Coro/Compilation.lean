import Coro.Emit.File
import Coro.Parser.Item
import Coro.Program.CallGraph
import Coro.Program.Lowering
import Coro.Report
import Coro.Resolution
import Coro.Token.Lexer

/-! From sources to programs, and what can go wrong on the way. -/

namespace Coro

/-- Why a source has no program. -/
inductive Failure where
  | lexical (errors : List (Located LexError))
  | grammar (error : Located ParseError)
  | meaning (error : Located ResolutionError)
  | lowering (error : Located LoweringError)
  | linkage (error : Located LinkError)

/-- The report on a failure. -/
def Failure.report : Failure → Report
  | lexical errors => .errors "lexical error" (errors.map (Located.map LexError.message))
  | grammar error => .errors "syntax error" [error.map ParseError.message]
  | meaning error => .errors "semantic error" [error.map ResolutionError.message]
  | lowering error => .errors "error" [error.map LoweringError.message]
  | linkage error => .errors "error" [error.map LinkError.message]

/-- The program of a model whose calls can be carried out, with the warnings about them. -/
def Model.link (model : Model) : Except Failure (Program × List (Located Warning)) := do
  let program ← model.lower.mapError .lowering
  program.checkCalls.mapError .linkage
  return (program, program.unusedSubroutines)

namespace Source

/-- Reads a source as a description. -/
def parse (source : Source) : Except Failure Ast.Description := do
  let tokens ← source.tokens.mapError .lexical
  (Ast.Description.parse (.point .first) tokens).mapError .grammar

/-- The model that a source describes. -/
def analyze (source : Source) : Except Failure Resolved := do
  let description ← source.parse
  description.resolve.mapError .meaning

/-- The program that a source describes, with the warnings so far. -/
def link (source : Source) : Except Failure (Program × List (Located Warning)) := do
  -- Warnings about hints come before those about calls.
  let resolved ← source.analyze
  let (program, unused) ← resolved.model.link
  return (program, resolved.warnings ++ unused)

end Source

/-- A program that is ready for a target. -/
structure Compiled where
  /-- The name of the source. -/
  name : String
  target : Target
  program : Program
  plan : Plan
  /-- The warnings, in the order in which they arose. -/
  warnings : List (Located Warning)

/-- Makes a program ready for a target, with the warnings so far. -/
def Program.compile (program : Program) (name : String) (target : Target)
    (warnings : List (Located Warning)) : Compiled :=
  -- Registers come last, so their warnings do too.
  let (plan, unmet) := program.bindRegisters target
  ⟨name, target, program, plan, warnings ++ unmet⟩

/-- Compiles a source for a target. -/
def Source.compile (source : Source) (target : Target) : Except Failure Compiled := do
  let (program, warnings) ← source.link
  return program.compile source.name target warnings

namespace Compiled

/-- The generated file. -/
def text (compiled : Compiled) : String :=
  Emit.fileText compiled.target compiled.program compiled.plan compiled.name

/-- The compiler flags that go with the generated file. -/
def flags (compiled : Compiled) : String :=
  Emit.flagsText compiled.target compiled.program compiled.plan

/-- The name of the file of flags, if one is asked for. -/
def flagsName? (compiled : Compiled) : Option String :=
  Emit.flagsName? compiled.program

/-- The report on the warnings, if there are any. -/
def report? (compiled : Compiled) : Option Report :=
  if compiled.warnings.isEmpty then none
  else some (.warnings (compiled.warnings.map (Located.map Warning.message)))

end Compiled

/-- The file that is generated from a model under a name, and the flags that go with it. -/
def Model.generate (model : Model) (target : Target) (name : String) :
    Except Failure (String × String) := do
  let (program, warnings) ← model.link
  let compiled := program.compile name target warnings
  return (compiled.text, compiled.flags)

end Coro
