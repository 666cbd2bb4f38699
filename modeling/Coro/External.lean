import Coro.IntType

/-! Entities that the surrounding program provides. -/

namespace Coro

/-- What an external name stands for: a variable of some type, or a function of any arguments. -/
inductive ExternalKind where
  | data (type : IntType) (volatile : Bool)
  | function
deriving Repr, DecidableEq, Inhabited

end Coro
