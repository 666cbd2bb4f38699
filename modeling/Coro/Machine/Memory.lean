import Coro.Model

/-! Values of variables. -/

namespace Coro

/-- The values of some variables, each with as many as it has elements. -/
abbrev Memory := Array (Array Int64)

namespace Memory

/-- One element of a variable. -/
def read? (memory : Memory) (id index : Nat) : Option Int64 :=
  memory[id]?.bind fun cells => cells[index]?

/-- Changes one element of a variable. -/
def write (memory : Memory) (id index : Nat) (value : Int64) : Memory :=
  -- Outside its bounds a write changes nothing, so no variable ever grows.
  memory.modify id fun cells => cells.setIfInBounds index value

/-- A write changes the element it is meant for, if there is one, and no other. -/
theorem read?_write (memory : Memory) (id index : Nat) (value : Int64) (id' index' : Nat) :
    (memory.write id index value).read? id' index' =
      if id' = id ∧ index' = index then (memory.read? id index).map fun _ => value
      else memory.read? id' index' := by
  simp only [read?, write, Array.getElem?_modify]
  by_cases storage : id = id'
  · subst storage
    cases memory[id]? with
    | none => simp
    | some cells =>
      -- Within one variable, the write is one of an array.
      by_cases element : index = index'
      · subst element
        simp only [↓reduceIte, and_self, Option.bind_some, Option.map_some,
          Array.getElem?_setIfInBounds]
        by_cases inside : index < cells.size <;> simp [inside]
      · simp [element, Ne.symm element]
  · -- Other variables are left alone.
    simp [storage, Ne.symm storage]

end Memory

/-- The values of static variables before a run. -/
def initialMemory (statics : List StaticVariable) : Memory :=
  (statics.map fun storage => Array.replicate storage.size (storage.initial.getD 0)).toArray

/-- The local variables of a body that runs. -/
structure Frame where
  locals : List Local
  memory : Memory
deriving Inhabited

/-- The first values of local variables: arguments for the parameters, and zeros. -/
def argumentCells : List Local → List Int64 → List (Array Int64)
  | [], _ => []
  | known :: rest, [] => Array.replicate known.size 0 :: argumentCells rest []
  -- A parameter is no array: it holds the argument, made to fit.
  | known :: rest, arg :: args => #[known.type.wrap arg] :: argumentCells rest args

/-- The local variables of a body that starts with some arguments. -/
def Frame.enter (locals : List Local) (args : List Int64) : Frame :=
  ⟨locals, (argumentCells locals args).toArray⟩

end Coro
