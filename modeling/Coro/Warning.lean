import Coro.Model.Hint

/-! Remarks that do not stop a compilation. -/

namespace Coro

/-- What a warning is about; paths are dotted. -/
inductive Warning where
  | conflictingRegisterHint (path register owner : String)
  | registerPoolExhausted (path : String) (group : RegisterClass)
  | unbindableStorage (path : String)
  | registerUnavailable (path register : String)
  | conflictingTuning (path : String)
  | ignoredTuning (path : String)
  | unusedSubroutine (path : String)
deriving Repr, DecidableEq, Inhabited

/-- The text of a warning. -/
def Warning.message : Warning → String
  | conflictingRegisterHint path register owner =>
    "Register " ++ register ++ " is already claimed by `" ++ owner ++ "`, `" ++ path ++
      "` falls back to ordinary storage"
  | registerPoolExhausted path group =>
    "No " ++ group.describe ++ " registers left for `" ++ path ++
      "`, it falls back to ordinary storage"
  | unbindableStorage path =>
    "`" ++ path ++ "` is volatile or an array and cannot live in a register"
  | registerUnavailable path register =>
    "Register " ++ register ++ " cannot be bound on this target, `" ++ path ++
      "` falls back to ordinary storage"
  | conflictingTuning path =>
    "`" ++ path ++ "` requests both `no_inline` and `always_inline`, keeping `no_inline`"
  | ignoredTuning path => "`pure` has no effect on `" ++ path ++ "`"
  | unusedSubroutine path => "Subroutine `" ++ path ++ "` is never called"

end Coro
