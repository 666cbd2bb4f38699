import Coro.CommandLine.Response

/-! The command line. -/

open Coro
open Coro.CommandLine

/-- The cause of a failed access to a file. -/
def causeText : IO.Error → String
  | .noFileOrDirectory _ code _ => "No such file or directory (os error " ++ toString code ++ ")"
  | error => toString error

/-- Does one thing, and tells whether it worked. -/
def performAction : Action → IO Bool
  | .print text => do
    (← IO.getStdout).putStr text
    return true
  | .complain text => do
    (← IO.getStderr).putStr text
    return true
  | .write path text matter => do
    try
      IO.FS.writeFile path text
      return true
    catch error =>
      (← IO.getStderr).putStr (errorText matter (causeText error))
      return false

/-- Does one thing after the other, and gives the exit code. -/
def performResponse (response : Response) : IO UInt32 := do
  for action in response.actions do
    unless ← performAction action do return 1
  return UInt32.ofNat response.exit

/-- Reads what the arguments name and does what they ask for. -/
def main (arguments : List String) : IO UInt32 := do
  match request arguments with
  | .answer response => performResponse response
  | .stdin respond =>
    let bytes ← (← IO.getStdin).readBinToEnd
    performResponse (respond (.ofBytes stdinName bytes))
  | .file path respond =>
    let response ←
      try
        let bytes ← IO.FS.readBinFile path
        pure (respond (.ofBytes path bytes))
      catch error => pure (unreadable path (causeText error))
    performResponse response
