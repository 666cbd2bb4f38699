import Coro.Machine.Run

/-! Operating a machine from outside. -/

namespace Coro

/-- What a machine can be told to do. -/
inductive Command where
  | boot
  | pass
  | tick
deriving Repr, DecidableEq, Inhabited

namespace Machine

variable {σ : Type} [Host σ]

/-- Carries out a command, and tells why it stopped if it did so early. -/
def obey (program : Program) (fuel : Nat) (machine : Machine σ) :
    Command → Option Halt × Machine σ
  | .tick => (none, machine.tick)
  | .boot => finish (Exec.boot program fuel machine)
  | .pass => finish (Exec.pass program fuel machine)
where
  finish : EStateM.Result Halt (Machine σ) Unit → Option Halt × Machine σ
    | .ok _ machine => (none, machine)
    | .error halt machine => (some halt, machine)

/-- Carries out commands until one stops early. -/
def obeyAll (program : Program) (fuel : Nat) (machine : Machine σ) :
    List Command → Option Halt × Machine σ
  | [] => (none, machine)
  | command :: rest =>
    match machine.obey program fuel command with
    | (none, machine) => machine.obeyAll program fuel rest
    | stopped => stopped

/-- Carries out so many passes, each behind a tick, until one stops early. -/
def timedPasses (program : Program) (fuel : Nat) :
    Nat → Machine σ → Option Halt × Machine σ
  | 0, machine => (none, machine)
  | count + 1, machine =>
    match machine.tick.obey program fuel .pass with
    | (none, machine) => timedPasses program fuel count machine
    | stopped => stopped

end Machine

end Coro
