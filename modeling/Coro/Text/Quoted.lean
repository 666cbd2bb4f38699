import Coro.Text.Unprintable

/-! Characters and strings as messages quote them. -/

namespace Coro

/-- A character inside quotes: the quote and what cannot be shown are escaped. -/
def escapeChar (quote c : Char) : List Char :=
  -- Only the quote in use needs a backslash, the other kind stands for itself.
  if c = quote ∨ c = '\\' then ['\\', c]
  else if c = '\n' then ['\\', 'n']
  else if c = '\r' then ['\\', 'r']
  else if c = '\t' then ['\\', 't']
  else if c.toNat = 0 then ['\\', '0']
  else if isPrintable c then [c]
  else ['\\', 'u', '\x7b'] ++ Nat.toDigits 16 c.toNat ++ ['\x7d']

/-- A character between single quotes. -/
def quoteChar (c : Char) : String :=
  String.ofList (['\''] ++ escapeChar '\'' c ++ ['\''])

/-- A string between double quotes. -/
def quoteString (text : String) : String :=
  String.ofList (['"'] ++ text.toList.flatMap (escapeChar '"') ++ ['"'])

end Coro
