/-! Integer types of storage and the truncation of values to them. -/

namespace Coro

/-- The type of a stored integer: unsigned or two's complement, of one to four bytes. -/
inductive IntType where
  | u8 | u16 | u24 | u32
  | i8 | i16 | i24 | i32
deriving Repr, DecidableEq, Inhabited

namespace IntType

/-- Every type, in the order of their keywords. -/
def all : List IntType := [u8, u16, u24, u32, i8, i16, i24, i32]

/-- Size in bytes. -/
def bytes : IntType → Nat
  | u8 | i8 => 1
  | u16 | i16 => 2
  | u24 | i24 => 3
  | u32 | i32 => 4

/-- Size in bits. -/
def bits (type : IntType) : Nat := type.bytes * 8

/-- Whether negative values are stored. -/
def signed : IntType → Bool
  | i8 | i16 | i24 | i32 => true
  | _ => false

/-- The keyword of the type. -/
def name : IntType → String
  | u8 => "u8"
  | u16 => "u16"
  | u24 => "u24"
  | u32 => "u32"
  | i8 => "i8"
  | i16 => "i16"
  | i24 => "i24"
  | i32 => "i32"

/-- What remains of a value after it was stored: its low bits, read back as the type reads them. -/
def wrap (type : IntType) (value : Int64) : Int64 :=
  -- The low bits are kept, and the highest of them is the sign where there is one.
  let low := value.toBitVec.setWidth type.bits
  .ofBitVec (if type.signed then low.signExtend 64 else low.setWidth 64)

end IntType

end Coro
