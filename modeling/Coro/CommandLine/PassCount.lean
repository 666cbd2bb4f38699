/-! Reading the number of passes to simulate. -/

namespace Coro.CommandLine

/-- Why a text is no number of passes. -/
inductive CountError where
  | empty
  | badDigit
  | tooLarge
deriving Repr, DecidableEq, Inhabited

/-- The text of a fault. -/
def CountError.message : CountError → String
  | empty => "cannot parse integer from empty string"
  | badDigit => "invalid digit found in string"
  | tooLarge => "number too large to fit in target type"

/-- The largest number of passes. -/
def maxCount : Nat := 18446744073709551615

/-- Reads digits behind a value, and stops at the first fault. -/
def readDigits (value : Nat) : List Char → Except CountError Nat
  | [] => return value
  | c :: rest =>
    -- Faults are looked for from left to right, whichever kind they are.
    let next := 10 * value + (c.toNat - '0'.toNat)
    if !c.isDigit then throw .badDigit
    else if next > maxCount then throw .tooLarge
    else readDigits next rest

/-- Reads a number of passes, which may have a plus sign. -/
def readCount (text : String) : Except CountError Nat :=
  match text.toList with
  | [] => throw .empty
  | ['+'] => throw .badDigit
  | '+' :: digits => readDigits 0 digits
  | digits => readDigits 0 digits

end Coro.CommandLine
