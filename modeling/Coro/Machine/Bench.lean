import Coro.Machine.Host

/-! A host for trying programs out, which follows a script and keeps a record. -/

namespace Coro

/-- What passed between a program and its host. -/
inductive Event where
  | read (name : String) (value : Int64)
  | write (name : String) (value : Int64)
  | call (name : String) (args : List Int64) (result : Int64)
deriving Repr, DecidableEq, Inhabited

/-- Values that some names still have to give, one after the other. -/
abbrev Prepared := List (String × List Int64)

/-- The next value that a name has to give. -/
def Prepared.next? (prepared : Prepared) (name : String) : Option (Int64 × Prepared) :=
  match prepared with
  | [] => none
  | (known, values) :: rest =>
    if known = name then
      match values with
      | [] => none
      | value :: values => some (value, (known, values) :: rest)
    else (Prepared.next? rest name).map fun (value, rest) => (value, (known, values) :: rest)

/-- A host that remembers what is written and answers as prepared. -/
structure Bench where
  /-- The values that variables have. -/
  values : List (String × Int64)
  /-- What comes before the values when variables are read. -/
  reads : Prepared
  /-- The results of function calls; they are zero when nothing is left. -/
  returns : Prepared
  /-- What is set after a variable is written. -/
  onWrite : List (String × List (String × Int64))
  /-- What is set after a function is called. -/
  onCall : List (String × List (String × Int64))
  events : Array Event
deriving Inhabited

namespace Bench

/-- A host without a script. -/
def empty : Bench := ⟨[], [], [], [], [], #[]⟩

/-- The value of a variable, which is zero at first. -/
def get (bench : Bench) (name : String) : Int64 :=
  (List.lookup name bench.values).getD 0

/-- Gives a variable a value. -/
def set (bench : Bench) (name : String) (value : Int64) : Bench :=
  { bench with values := (name, value) :: bench.values.filter fun (known, _) => known != name }

/-- Gives several variables values. -/
def setAll (bench : Bench) (changes : List (String × Int64)) : Bench :=
  changes.foldl (fun bench (name, value) => bench.set name value) bench

/-- Adds to the record. -/
def record (bench : Bench) (event : Event) : Bench :=
  { bench with events := bench.events.push event }

/-- The values written to variables, in order. -/
def writes (bench : Bench) : List (String × Int64) :=
  bench.events.toList.filterMap fun
    | .write name value => some (name, value)
    | _ => none

/-- The values written to one variable, in order. -/
def writesTo (bench : Bench) (name : String) : List Int64 :=
  (bench.writes.filter fun (known, _) => known = name).map Prod.snd

/-- The functions called, with their arguments, in order. -/
def calls (bench : Bench) : List (String × List Int64) :=
  bench.events.toList.filterMap fun
    | .call name args _ => some (name, args)
    | _ => none

end Bench

instance : Host Bench where
  read name bench :=
    -- Prepared values come first and leave the variable as it is.
    match Prepared.next? bench.reads name with
    | some (value, reads) => (value, { bench with reads }.record (.read name value))
    | none => (bench.get name, bench.record (.read name (bench.get name)))
  write name value bench :=
    -- The answer to a write may replace what was written.
    let written := (bench.set name value).record (.write name value)
    written.setAll ((List.lookup name bench.onWrite).getD [])
  call name args bench :=
    let (result, returns) := (Prepared.next? bench.returns name).getD (0, bench.returns)
    let called := { bench with returns }.record (.call name args result)
    (result, called.setAll ((List.lookup name bench.onCall).getD []))

end Coro
