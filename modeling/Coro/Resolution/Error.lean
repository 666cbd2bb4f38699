import Coro.Location

/-! Faults of meaning: descriptions that follow the grammar and still declare no model. -/

namespace Coro

/-- What is wrong with a description. -/
inductive ResolutionError where
  | duplicateName (name : String)
  | reservedName (name : String)
  | unknownReference (name : String)
  | suspensionOutsideCoroutine (construct : String)
  | subroutineOutsideThread (name : String)
  | outsideLoop (construct : String)
  | arityMismatch (name : String) (expected found : Nat)
  | expectedSubroutine (name : String)
  | expectedFunction (name : String)
  | expectedVariable (name : String)
  | notAnArray (name : String)
  | expectedIndex (name : String)
  | notConstant
  | arrayInitializer
  | badLength
  | missingEntry
  | unexpectedReturnValue
  | missingReturnValue (name : String)
  | voidValue (name : String)
  | unknownTuning (name : String)
  | unknownRegisterClass (name : String)
  | unknownProfile (name : String)
  | badHintTarget (path : String)
deriving Repr, DecidableEq, Inhabited

/-- The text of a fault. -/
def ResolutionError.message : ResolutionError → String
  | duplicateName name => "Name `" ++ name ++ "` is already defined in this scope"
  | reservedName name => "Name `" ++ name ++ "` is reserved for generated C symbols"
  | unknownReference name => "Symbol `" ++ name ++ "` is undefined"
  | suspensionOutsideCoroutine construct =>
    "`" ++ construct ++ "` is only allowed inside a thread or subroutine"
  | subroutineOutsideThread name =>
    "Subroutine `" ++ name ++ "` must be declared inside a thread or another subroutine"
  | outsideLoop construct => "`" ++ construct ++ "` outside of a loop"
  | arityMismatch name expected found =>
    "`" ++ name ++ "` expects " ++ toString expected ++ " argument(s), found " ++ toString found
  | expectedSubroutine name => "`" ++ name ++ "` is not a subroutine visible from here"
  | expectedFunction name => "`" ++ name ++ "` is not a function, use `call` for subroutines"
  | expectedVariable name => "`" ++ name ++ "` is not a variable"
  | notAnArray name => "`" ++ name ++ "` is not an array"
  | expectedIndex name => "Array `" ++ name ++ "` must be indexed"
  | notConstant => "Initializers must be constant expressions"
  | arrayInitializer => "Arrays cannot have initializers"
  | badLength => "Array length must be in the range [1, 65535]"
  | missingEntry => "Entrypoint not found, define a `main \x7b ... \x7d` block"
  | unexpectedReturnValue => "Only functions with a return type can return a value"
  | missingReturnValue name => "Function `" ++ name ++ "` must return a value"
  | voidValue name => "Function `" ++ name ++ "` does not return a value"
  | unknownTuning name =>
    "Unknown tuning directive `" ++ name ++ "`, expected `pure`, `no_inline` or `always_inline`"
  | unknownRegisterClass name =>
    "Unknown register class `" ++ name ++ "`, expected `low`, `high`, `any` or `rN`"
  | unknownProfile name =>
    "Unknown flags profile `" ++ name ++ "`, expected `size` or `speed`"
  | badHintTarget path => "`" ++ path ++ "` cannot carry this kind of hint"

end Coro
