import Coro.CommandLine.Response

/-! Running the command line in a directory that is kept in memory. -/

namespace Coro.CommandLine

/-- Files by the names that lead to them; a folder is there when it holds a file. -/
structure Directory where
  files : List (List String × String)
deriving Repr, Inhabited

/-- What is said of a file or folder that is not there. -/
def missingText : String := "No such file or directory (os error 2)"

namespace Directory

/-- The names on a path. -/
def namesOf (path : String) : List String :=
  path.splitOn "/"

/-- The directory with some files. -/
def ofFiles (files : List (String × String)) : Directory :=
  ⟨files.map fun (path, text) => (namesOf path, text)⟩

/-- A folder is there. -/
def hasFolder (directory : Directory) (names : List String) : Bool :=
  names.isEmpty || directory.files.any fun (known, _) =>
    decide (names.length < known.length) && names.isPrefixOf known

/-- Follows names from a folder, as long as there are folders on the way. -/
def follow? (directory : Directory) (folder : List String) : List String → Option (List String)
  | [] => none
  -- The last name is that of a file, so it cannot stand for a folder.
  | [name] => if name = "" ∨ name = "." ∨ name = ".." then none else some (folder ++ [name])
  | name :: rest =>
    if name = "" ∨ name = "." then directory.follow? folder rest
    else if name = ".." then directory.follow? folder.dropLast rest
    else if directory.hasFolder (folder ++ [name]) then directory.follow? (folder ++ [name]) rest
    else none

/-- The names of the file that a relative path leads to, whether it is there or not. -/
def locate? (directory : Directory) (path : String) : Option (List String) :=
  if path.toList.head? = some '/' then none else directory.follow? [] (namesOf path)

/-- The text of a file. -/
def read? (directory : Directory) (path : String) : Option String := do
  List.lookup (← directory.locate? path) directory.files

/-- Writes a file into a folder that is there. -/
def write? (directory : Directory) (path text : String) : Option Directory := do
  -- The file replaces an earlier one under the same names.
  let names ← directory.locate? path
  return ⟨directory.files.filter (fun (known, _) => known != names) ++ [(names, text)]⟩

/-- The files that a later directory has and that are not the same in this one. -/
def changes (directory later : Directory) : List (String × String) :=
  (later.files.filter fun (names, text) => List.lookup names directory.files != some text).map
    fun (names, text) => ("/".intercalate names, text)

end Directory

/-- What a run has shown, its exit code, and the files behind it. -/
structure Outcome where
  exit : Nat
  stdout : String
  stderr : String
  directory : Directory
deriving Repr, Inhabited

namespace Outcome

/-- Does one thing after the other; a file that cannot be written ends it all. -/
def perform (outcome : Outcome) (exit : Nat) : List Action → Outcome
  | [] => { outcome with exit }
  | .print text :: rest => { outcome with stdout := outcome.stdout ++ text }.perform exit rest
  | .complain text :: rest => { outcome with stderr := outcome.stderr ++ text }.perform exit rest
  | .write path text matter :: rest =>
    match outcome.directory.write? path text with
    | some directory => { outcome with directory }.perform exit rest
    | none => { outcome with
        exit := 1
        stderr := outcome.stderr ++ errorText matter (some missingText) }

end Outcome

/-- Runs the command line with some arguments. -/
def runIn (directory : Directory) (stdin : String) (arguments : List String) : Outcome :=
  let response := match request arguments with
    | .answer response => response
    | .stdin respond => respond (.ofText stdinName stdin)
    | .file path respond =>
      match directory.read? path with
      | some text => respond (.ofText path text)
      | none => unreadable path missingText
  Outcome.perform ⟨0, "", "", directory⟩ response.exit response.actions

end Coro.CommandLine
