import Coro.IntType

/-! Machines that code is generated for: their types and the registers that can be bound. -/

namespace Coro

/-- Where the generated code runs: an 8-bit microcontroller, or the machine that compiles it. -/
inductive Target where
  | avr | hosted
deriving Repr, DecidableEq, Inhabited

namespace Target

/-- The name of the target. -/
def name : Target → String
  | avr => "avr"
  | hosted => "hosted"

/-- The target with a given name. -/
def ofName? (name : String) : Option Target :=
  if name = "avr" then some avr
  else if name = "hosted" ∨ name = "native" then some hosted
  else none

/-- What is said of a name that no target has. -/
def unknownMessage (name : String) : String :=
  "Unknown target `" ++ name ++ "`, expected `avr` or `hosted`"

/-- The type of the generated code that stores a given type. -/
def storageType (target : Target) : IntType → String
  | .u8 => "uint8_t"
  | .u16 => "uint16_t"
  | .u24 => if target = avr then "__uint24" else "uint32_t"
  | .u32 => "uint32_t"
  | .i8 => "int8_t"
  | .i16 => "int16_t"
  | .i24 => if target = avr then "__int24" else "int32_t"
  | .i32 => "int32_t"

/--
The numbers of the registers that a variable can be bound to, in ascending order.

Only what a called function preserves can be taken from the compiler without breaking calls.
-/
def registers : Target → List Nat
  -- Registers 2 to 17 survive calls.
  | avr => List.range' 2 16
  | hosted => []

end Target

/-- The registers without immediate operands. -/
def isLowRegister (number : Nat) : Bool :=
  decide (number < 16)

/-- A register as it is written. -/
def registerName (number : Nat) : String :=
  "r" ++ toString number

/-- The compiler option that keeps a register free. -/
def fixedFlag (number : Nat) : String :=
  "-ffixed-" ++ registerName number

end Coro
