/-! The world around a running program. -/

namespace Coro

/-- A state of the world that a program reads, writes and calls by name. -/
class Host (σ : Type) where
  /-- Reads an external variable. -/
  read : String → σ → Int64 × σ
  /-- Writes an external variable; the value fits its type. -/
  write : String → Int64 → σ → σ
  /-- Calls an external function. -/
  call : String → List Int64 → σ → Int64 × σ

end Coro
