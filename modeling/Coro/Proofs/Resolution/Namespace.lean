import Coro.Proofs.Program.Reference
import Coro.Proofs.Resolution.Region

/-!
Which names are declared in which bodies.

A path leads from the top level through all bodies around a declaration. Where each body declares
a name only once, a path leads to one entity only.
-/

namespace Coro

/-- The names that are declared, each with the body that declares it. -/
structure Naming where
  externals : List String
  statics : List (Owner × Path)
  coroutines : List (Owner × Path)
  functions : List String
  hooks : List String
  /-- There is an entry point. -/
  entry : Bool
  locals : Owner → List String

namespace Naming

/-- The path that leads to a body, if it is declared. -/
def path? (known : Naming) : Owner → Option Path
  | .global => some ⟨[]⟩
  | .coroutine id => known.coroutines[id]?.map Prod.snd
  | .function id => known.functions[id]?.map .ofName
  | .hook id => known.hooks[id]?.map .ofName
  | .entry => if known.entry then some (.ofName "main") else none

/-- A body declares a name, which stands for an entity. -/
def Declares (known : Naming) (owner : Owner) (name : String) : Entity → Prop
  | .static id => ∃ path, known.statics[id]? = some (owner, path) ∧ path.name = name
  | .localVar id => (known.locals owner)[id]? = some name
  | .external id => owner = .global ∧ known.externals[id]? = some name
  | .function id => owner = .global ∧ known.functions[id]? = some name
  | .coroutine id => ∃ path, known.coroutines[id]? = some (owner, path) ∧ path.name = name
  | .hook id => owner = .global ∧ known.hooks[id]? = some name

/-- A path leads into a body, and there to a name. -/
def Leads (known : Naming) (owner : Owner) (path : Path) : Prop :=
  ∃ around, known.path? owner = some around ∧ path = around.member path.name

/-- All paths lead into the bodies that they are declared in. -/
structure Rooted (known : Naming) : Prop where
  statics : ∀ owner path, (owner, path) ∈ known.statics → known.Leads owner path
  coroutines : ∀ owner path, (owner, path) ∈ known.coroutines → known.Leads owner path
  /-- Only bodies that are declared have local variables. -/
  locals : ∀ owner, known.path? owner = none → known.locals owner = []
  top : known.locals .global = []

/-- A body declares each name for one entity, and only names that it may declare. -/
structure Apart (known : Naming) (fine : String → Prop) (owner : Owner) : Prop where
  unique : ∀ name one other, known.Declares owner name one → known.Declares owner name other →
    one = other
  allowed : ∀ name entity, known.Declares owner name entity → isReserved name = false ∧ fine name

/-- All paths lead into their bodies, and no body declares a name twice. -/
structure Orderly (known : Naming) (fine : String → Prop) : Prop where
  rooted : known.Rooted
  apart : ∀ owner, known.Apart fine owner

/-- A path leads to an entity that a body declares. -/
def Places (known : Naming) (path : Path) (owner : Owner) (entity : Entity) : Prop :=
  ∃ around name, known.path? owner = some around ∧ path = around.member name ∧
    known.Declares owner name entity

variable {known : Naming} {fine : String → Prop} {owner : Owner} {path : Path}

theorem Rooted.static_places (rooted : known.Rooted) {id : StaticId}
    (found : known.statics[id]? = some (owner, path)) : known.Places path owner (.static id) := by
  obtain ⟨around, leads, same⟩ := rooted.statics owner path (List.mem_of_getElem? found)
  exact ⟨around, path.name, leads, same, path, found, rfl⟩

theorem Rooted.coroutine_places (rooted : known.Rooted) {id : CoroutineId}
    (found : known.coroutines[id]? = some (owner, path)) :
    known.Places path owner (.coroutine id) := by
  obtain ⟨around, leads, same⟩ := rooted.coroutines owner path (List.mem_of_getElem? found)
  exact ⟨around, path.name, leads, same, path, found, rfl⟩

theorem global_places {name : String} {entity : Entity}
    (declared : known.Declares .global name entity) :
    known.Places (.ofName name) .global entity :=
  ⟨⟨[]⟩, name, rfl, Path.ofName_eq_member name, declared⟩

/-- A body other than the top level is the entry point, or that of an entity with this path. -/
theorem Rooted.body_places (rooted : known.Rooted) (found : known.path? owner = some path) :
    owner = .global ∧ path = ⟨[]⟩ ∨ owner = .entry ∧ path = .ofName "main" ∨
      ∃ outer entity, entity.owner? = some owner ∧ known.Places path outer entity := by
  cases owner with
  | global => exact .inl ⟨rfl, (Option.some.inj found).symm⟩
  | entry =>
    simp only [path?] at found
    split at found
    · exact .inr (.inl ⟨rfl, (Option.some.inj found).symm⟩)
    · cases found
  | coroutine id =>
    obtain ⟨⟨outer, inner⟩, listed, rfl⟩ := Option.map_eq_some_iff.mp found
    exact .inr (.inr ⟨outer, .coroutine id, rfl, rooted.coroutine_places listed⟩)
  | function id =>
    obtain ⟨name, listed, rfl⟩ := Option.map_eq_some_iff.mp found
    exact .inr (.inr ⟨.global, .function id, rfl, global_places ⟨rfl, listed⟩⟩)
  | hook id =>
    obtain ⟨name, listed, rfl⟩ := Option.map_eq_some_iff.mp found
    exact .inr (.inr ⟨.global, .hook id, rfl, global_places ⟨rfl, listed⟩⟩)

theorem Apart.main_free {entity : Entity} (apart : known.Apart fine .global) :
    ¬ known.Declares .global "main" entity := by
  intro declared
  have free := (apart.allowed "main" entity declared).1
  exact absurd free (by decide)

/-- Different bodies have different paths. -/
theorem Orderly.path?_injective (orderly : known.Orderly fine) {one other : Owner}
    (left : known.path? one = some path) (right : known.path? other = some path) :
    one = other := by
  -- The bodies around them have shorter paths, so the claim holds for those already.
  generalize size : path.names.length = n
  induction n generalizing one other path with
  | zero =>
    have top : ∀ {owner}, known.path? owner = some path → owner = .global := by
      intro owner found
      rcases orderly.rooted.body_places found with ⟨rfl, -⟩ | ⟨-, rfl⟩ | ⟨_, _, _, _, _, _, rfl, _⟩
      · rfl
      · simp [Path.ofName] at size
      · simp [Path.member] at size
    rw [top left, top right]
  | succ n ih =>
    -- A path of some names ends in a name that one body declares.
    have ends : ∀ {owner}, known.path? owner = some path →
        owner = .entry ∧ path = .ofName "main" ∨
          ∃ outer entity, entity.owner? = some owner ∧ known.Places path outer entity := by
      intro owner found
      rcases orderly.rooted.body_places found with ⟨-, rfl⟩ | rest
      · simp at size
      · exact rest
    have main : ∀ {outer entity}, ¬ known.Places (.ofName "main") outer entity := by
      rintro outer entity ⟨around, name, leads, same, declared⟩
      obtain ⟨rfl, rfl⟩ := Path.member_inj.mp ((Path.ofName_eq_member "main").symm.trans same)
      rcases orderly.rooted.body_places leads with ⟨rfl, -⟩ | ⟨-, bad⟩ | ⟨_, _, _, _, _, _, bad, _⟩
      · exact (orderly.apart .global).main_free declared
      · exact absurd bad.symm (Path.member_ne_top ⟨[]⟩ "main")
      · exact absurd bad.symm (Path.member_ne_top _ _)
    rcases ends left with ⟨rfl, rfl⟩ | ⟨outer, entity, has, placed⟩
    · rcases ends right with ⟨rfl, -⟩ | ⟨_, _, _, placed⟩
      · rfl
      · exact absurd placed main
    · rcases ends right with ⟨-, rfl⟩ | ⟨outer', entity', has', placed'⟩
      · exact absurd placed main
      · obtain ⟨around, name, leads, rfl, declared⟩ := placed
        obtain ⟨around', name', leads', same, declared'⟩ := placed'
        obtain ⟨rfl, rfl⟩ := Path.member_inj.mp same
        -- Both stand in the same body, which declares the name once.
        obtain rfl := ih leads leads' (by simpa [Path.member] using size)
        obtain rfl := (orderly.apart outer).unique name entity entity' declared declared'
        exact Option.some.inj (has.symm.trans has')

/-- A path leads to one entity only. -/
theorem Orderly.places_unique (orderly : known.Orderly fine) {one other : Owner}
    {first second : Entity} (left : known.Places path one first)
    (right : known.Places path other second) : one = other ∧ first = second := by
  obtain ⟨around, name, leads, rfl, declared⟩ := left
  obtain ⟨around', name', leads', same, declared'⟩ := right
  obtain ⟨rfl, rfl⟩ := Path.member_inj.mp same
  obtain rfl := orderly.path?_injective leads leads'
  exact ⟨rfl, (orderly.apart one).unique name first second declared declared'⟩

end Naming

/-- The names that a model declares. -/
def Model.naming (model : Model) : Naming where
  externals := model.externals.map External.name
  statics := model.statics.map fun storage => (storage.owner, storage.path)
  coroutines := model.coroutines.map fun coroutine => (.ofParent coroutine.parent, coroutine.path)
  functions := model.functions.map Function.name
  hooks := model.hooks.map Hook.name
  entry := true
  locals owner := (model.body? owner).elim [] fun body => body.locals.map Local.name

namespace Model

variable (model : Model) {owner : Owner}

/-- The path of a body leads into it. -/
theorem path?_naming (inner : owner ≠ .global) :
    model.naming.path? owner = (model.script? owner).map fun script => script.path := by
  cases owner with
  | global => exact absurd rfl inner
  | entry => rfl
  | _ =>
    simp only [Naming.path?, naming, script?, List.getElem?_map, Option.map_map]
    rfl

/-- The local variables of a body have the names that are written for them. -/
theorem locals_naming (owner : Owner) : model.naming.locals owner =
    (model.script? owner).elim [] fun script => script.locals.map Located.value := by
  cases owner with
  | global => rfl
  | entry => simp [naming, body?, script?, Entry.script, Local.written]
  | coroutine id =>
    cases found : model.coroutines[id]? <;>
      simp [naming, body?, script?, found, Coroutine.script, Local.written]
  | function id =>
    cases found : model.functions[id]? <;>
      simp [naming, body?, script?, found, Function.script, Local.written]
  | hook id =>
    cases found : model.hooks[id]? <;>
      simp [naming, body?, script?, found, Hook.script, Local.written]

variable {model} {script : Script}

theorem path?_of_script? (found : model.script? owner = some script) :
    model.naming.path? owner = some script.path := by
  rw [path?_naming, found, Option.map_some]
  rintro rfl
  cases found

end Model

end Coro
