import Coro.Proofs.Resolution.Body

/-!
What the names in a body stand for.

A name that is used is sought in layers of names: first among those of the body itself, with the
local variables declared before, then among those around it. Every name of a body comes to stand for
the declaration that is found in this way.
-/

namespace Coro

variable {entity : Entity} {after before known : Inventory} {locals more : List (Located String)}
  {layers : List Layer} {found : Located Path} {name : Located String} {place : Nat} {path : Path}

namespace Path

variable {path other : Path} {one two : String}

@[simp] theorem name_member (path : Path) (name : String) : (path.member name).name = name := by
  simp [Path.name, member]

theorem ofName_eq_member (name : String) : ofName name = member ⟨[]⟩ name := rfl

/-- A path tells its last name and what stands before. -/
theorem member_inj : path.member one = other.member two ↔ path = other ∧ one = two := by
  obtain ⟨names⟩ := path
  obtain ⟨others⟩ := other
  simp only [member, mk.injEq]
  constructor
  · intro same
    obtain ⟨front, last⟩ := List.append_inj' same rfl
    exact ⟨front, List.cons.inj last |>.1⟩
  · rintro ⟨rfl, rfl⟩
    rfl

/-- A member is not the top level. -/
theorem member_ne_top (path : Path) (name : String) : path.member name ≠ ⟨[]⟩ := by
  simp [member]

end Path

/-! ## Layers -/

/-- The names that are declared in one place, and the path that leads there. -/
structure Layer where
  path : Path
  names : List (Located String)
deriving Repr, DecidableEq

namespace Layer

/-- The declaration of a name in this layer alone. -/
def find? (layer : Layer) (name : String) : Option (Located Path) :=
  (layer.names.find? fun declared => declared.value = name).map fun declared =>
    ⟨layer.path.member declared.value, declared.location⟩

/-- More names in the same place. -/
def add (layer : Layer) (names : List (Located String)) : Layer :=
  { layer with names := layer.names ++ names }

@[simp] theorem add_path (layer : Layer) (names : List (Located String)) :
    (layer.add names).path = layer.path := rfl

/-- Names are added in order. -/
theorem add_add (layer : Layer) (one other : List (Located String)) :
    (layer.add one).add other = layer.add (one ++ other) := by
  simp [add]

theorem add_nil (layer : Layer) : layer.add [] = layer := by
  simp [add]

/-- The paths of the names. -/
def paths (layer : Layer) : List Path :=
  layer.names.map fun declared => layer.path.member declared.value

/-- Each name is declared once, and none is reserved. -/
structure Plain (layer : Layer) : Prop where
  distinct : (layer.names.map Located.value).Nodup
  free : ∀ name ∈ layer.names, isReserved name.value = false

/-- The innermost layer that has a name decides what it stands for. -/
def search (layers : List Layer) (name : String) : Option (Located Path) :=
  layers.findSome? (find? · name)

end Layer

/-- All declared entities but local variables: where they stand, and where their names do. -/
structure Inventory where
  externals : List (Located Path)
  statics : List (Located Path)
  coroutines : List (Located Path)
  functions : List (Located Path)
  hooks : List (Located Path)

/-- The local variables of a body, and the path that leads there. -/
structure Home where
  path : Path
  locals : List (Located String)

namespace Inventory

/-- The declaration of an entity, as a body refers to it. -/
def find? (known : Inventory) (home : Home) : Entity → Option (Located Path)
  | .static id => known.statics[id]?
  | .localVar id => home.locals[id]?.map (·.map home.path.member)
  | .external id => known.externals[id]?
  | .function id => known.functions[id]?
  | .coroutine id => known.coroutines[id]?
  | .hook id => known.hooks[id]?

/-- More entities behind those that are known. -/
structure GrowsTo (before after : Inventory) : Prop where
  externals : before.externals <+: after.externals
  statics : before.statics <+: after.statics
  coroutines : before.coroutines <+: after.coroutines
  functions : before.functions <+: after.functions
  hooks : before.hooks <+: after.hooks

theorem GrowsTo.refl (known : Inventory) : known.GrowsTo known :=
  ⟨List.prefix_rfl, List.prefix_rfl, List.prefix_rfl, List.prefix_rfl, List.prefix_rfl⟩

/-- An inventory may grow more than once. -/
theorem GrowsTo.trans {third : Inventory} (early : before.GrowsTo after)
    (late : after.GrowsTo third) : before.GrowsTo third :=
  ⟨early.externals.trans late.externals, early.statics.trans late.statics,
    early.coroutines.trans late.coroutines, early.functions.trans late.functions,
    early.hooks.trans late.hooks⟩

/-- An entity keeps its declaration, also when its body gets more local variables. -/
theorem find?_grown (grown : before.GrowsTo after) (longer : locals <+: more)
    (known : before.find? ⟨path, locals⟩ entity = some found) :
    after.find? ⟨path, more⟩ entity = some found := by
  -- Each kind of entity has a list of its own, and all of them grow at the end only.
  cases entity with
  | static id => exact getElem?_grown grown.statics known
  | external id => exact getElem?_grown grown.externals known
  | function id => exact getElem?_grown grown.functions known
  | coroutine id => exact getElem?_grown grown.coroutines known
  | hook id => exact getElem?_grown grown.hooks known
  | localVar id =>
    obtain ⟨name, listed, rfl⟩ := Option.map_eq_some_iff.mp known
    exact Option.map_eq_some_iff.mpr ⟨name, getElem?_grown longer listed, rfl⟩

/-- What needs no local variables is found in every home. -/
theorem find?_home {home : Home} (declared : known.find? ⟨path, []⟩ entity = some found) :
    known.find? home entity = some found := by
  cases entity with
  | localVar id => cases declared
  | _ => exact declared

end Inventory

/-! ## Scopes and layers -/

/-- A home without local variables. -/
def Home.empty : Home := ⟨⟨[]⟩, []⟩

namespace Scope

/-- A scope has the names of a layer, and each stands for the entity that is declared there. -/
structure Shows (scope : Scope) (known : Inventory) (home : Home) (layer : Layer) : Prop where
  stands : ∀ name, (scope.find? name).map (known.find? home) = (layer.find? name).map some
  plain : layer.Plain

variable {scope extended : Scope} {known after : Inventory} {home other : Home} {layer : Layer}
  {name : Located String} {entity : Entity}

/-- Only a new name that is not reserved can be added. -/
theorem define_new (defined : scope.define name entity = .ok extended) :
    isReserved name.value = false ∧ scope.find? name.value = none := by
  simp only [define] at defined
  split at defined
  · exact absurd defined throw_ne_ok
  · split at defined
    · exact absurd defined throw_ne_ok
    · rename_i free new
      exact ⟨by simpa using free, by simpa using new⟩

/-- A scope shows what is still found. -/
theorem Shows.mono (shows : scope.Shows known home layer)
    (kept : ∀ entity found, known.find? home entity = some found →
      after.find? other entity = some found) : scope.Shows after other layer := by
  refine ⟨fun name => ?_, shows.plain⟩
  have here := shows.stands name
  -- Scope and layer have the name both, or neither of them does.
  cases stands : scope.find? name with
  | none =>
    rw [stands] at here
    exact here
  | some entity =>
    rw [stands] at here
    cases declared : layer.find? name with
    | none =>
      rw [declared] at here
      cases here
    | some found =>
      rw [declared] at here
      exact congrArg some (kept entity found (Option.some.inj here))

theorem Shows.nil (known : Inventory) (home : Home) (path : Path) :
    Shows [] known home ⟨path, []⟩ :=
  ⟨fun _ => rfl, by simp, by simp⟩

/-- A new name joins the layer. -/
theorem Shows.define (shows : scope.Shows known home layer)
    (declared : known.find? home entity = some (name.map layer.path.member))
    (defined : scope.define name entity = .ok extended) :
    extended.Shows known home (layer.add [name]) := by
  obtain ⟨reserved, new⟩ := define_new defined
  -- Nothing had the name before, or it would have been refused.
  have free : layer.names.find? (fun declared => declared.value = name.value) = none := by
    have here := shows.stands name.value
    rw [new] at here
    cases earlier : layer.names.find? (fun declared => declared.value = name.value) with
    | none => rfl
    | some found =>
      rw [Layer.find?, earlier] at here
      cases here
  refine ⟨fun sought => ?_, ?_, ?_⟩
  · have here := shows.stands sought
    rw [find?_define defined]
    simp only [Layer.find?, Layer.add, List.find?_append] at here ⊢
    by_cases same : sought = name.value
    · subst same
      simp [free, declared, Located.map]
    · have different : (name.value = sought) = False := eq_false (Ne.symm same)
      simpa [same, different] using here
  · rw [Layer.add, List.map_append, List.nodup_append]
    refine ⟨shows.plain.distinct, by simp, ?_⟩
    rintro _ old _ last rfl
    obtain ⟨earlier, member, same⟩ := List.mem_map.mp old
    rw [List.find?_eq_none] at free
    exact free earlier member (by simpa [same] using last)
  · rintro other member
    rcases List.mem_append.mp member with old | last
    · exact shows.plain.free other old
    · rwa [List.mem_singleton.mp last]

end Scope

/-- A name stands for the entity whose declaration is found in layers. -/
def Finds (known : Inventory) (home : Home) (layers : List Layer) (name : Located String)
    (entity : Entity) : Prop :=
  ∃ found, Layer.search layers name.value = some found ∧ known.find? home entity = some found

/-- Scopes lead to the declaration that their layers lead to. -/
theorem finds_of_lookup {home : Home} {scopes : List Scope}
    (shown : List.Forall₂ (fun scope layer => Scope.Shows scope known home layer) scopes layers)
    (found : lookup scopes name = .ok entity) : Finds known home layers name entity := by
  have first : scopes.findSome? (Scope.find? · name.value) = some entity := by
    simp only [lookup] at found
    split at found
    case h_1 value located =>
      cases pure_eq_ok.mp found
      exact located
    case h_2 => exact absurd found throw_ne_ok
  clear found
  -- Both searches pass the same scopes, and end in the first that has the name.
  induction shown with
  | nil => cases first
  | @cons scope layer scopes layers here _ ih =>
    have same := here.stands name.value
    rw [List.findSome?_cons] at first
    cases own : scope.find? name.value with
    | some value =>
      rw [own] at first same
      cases first
      cases declared : layer.find? name.value with
      | none =>
        rw [declared] at same
        cases same
      | some place =>
        rw [declared] at same
        exact ⟨place, by simp [Layer.search, declared], Option.some.inj same⟩
    | none =>
      rw [own] at first same
      cases declared : layer.find? name.value with
      | some place =>
        rw [declared] at same
        cases same
      | none =>
        obtain ⟨place, later, entity⟩ := ih first
        exact ⟨place, by simpa [Layer.search, declared] using later, entity⟩

/-- Where a body stands, with the local variables that it has so far. -/
def BodyNames.home (names : BodyNames) (path : Path) : Home :=
  ⟨path, names.locals.map Local.written⟩

/-- The scopes of a body show the names that it has so far, and those around it. -/
structure Surroundings.Shows (around : Surroundings) (known : Inventory) (names : BodyNames)
    (own : Layer) (outer : List Layer) : Prop where
  own : names.scope.Shows known (names.home own.path) own
  outer : List.Forall₂ (fun scope layer => Scope.Shows scope known .empty layer) around.outer outer

namespace Surroundings

variable {around : Surroundings} {known : Inventory} {names : BodyNames} {own : Layer}
  {outer : List Layer}

/-! ## Expressions -/

/-- A name of a body stands for the declaration that is found for it. -/
theorem entity_finds (shows : around.Shows known names own outer)
    (found : around.entity names name = .ok entity) :
    Finds known (names.home own.path) (own :: outer) name entity := by
  refine finds_of_lookup (.cons shows.own ?_) found
  -- Nothing around a body is one of its local variables.
  refine shows.outer.imp fun scope layer there => there.mono fun entity found declared => ?_
  exact Inventory.find?_home declared

end Surroundings

/-! ## Statements -/

/--
Mentions of names become mentions of what the names stand for.

Each declaration of a local variable adds its name to the layer of the body, for what comes behind
it.
-/
inductive Bound (known : Inventory) (home : Home) (outer : List Layer) :
    Layer → List Ast.Mention → List (Mention Entity LocalId) → Prop where
  | nil (own : Layer) : Bound known home outer own [] []
  | use {own : Layer} {name : Located String} {entity : Entity} {rest : List Ast.Mention}
      {resolved : List (Mention Entity LocalId)}
      (finds : Finds known home (own :: outer) name entity)
      (later : Bound known home outer own rest resolved) :
      Bound known home outer own (.use name :: rest) (.use entity :: resolved)
  | declare {own : Layer} {name : Located String} {id : LocalId} {rest : List Ast.Mention}
      {resolved : List (Mention Entity LocalId)} (listed : home.locals[id]? = some name)
      (later : Bound known home outer (own.add [name]) rest resolved) :
      Bound known home outer own (.declare name :: rest) (.declare id :: resolved)

/-- A name stands for the same while more is declared. -/
theorem Finds.grow (grown : known.GrowsTo after) (longer : locals <+: more)
    (finds : Finds known ⟨path, locals⟩ layers name entity) :
    Finds after ⟨path, more⟩ layers name entity := by
  obtain ⟨found, sought, declared⟩ := finds
  exact ⟨found, sought, Inventory.find?_grown grown longer declared⟩

namespace Bound

variable {known after : Inventory} {home : Home} {outer : List Layer} {own : Layer}
  {written : List Ast.Mention} {resolved : List (Mention Entity LocalId)}

/-- So do all names of a body. -/
theorem grow (grown : known.GrowsTo after) (longer : locals <+: more)
    (bound : Bound known ⟨path, locals⟩ outer own written resolved) :
    Bound after ⟨path, more⟩ outer own written resolved := by
  induction bound with
  | nil own => exact .nil own
  | use finds _ ih => exact .use (finds.grow grown longer) ih
  | declare listed _ ih => exact .declare (getElem?_grown longer listed) ih

variable (bound : Bound known home outer own written resolved)

include bound

/-- Every mention is resolved. -/
theorem length_eq : resolved.length = written.length := by
  induction bound with
  | nil own => rfl
  | use _ _ ih | declare _ _ ih => exact congrArg (· + 1) ih

/-- A name that is used somewhere is sought among those declared before. -/
theorem finds (used : written[place]? = some (.use name)) :
    ∃ entity, resolved[place]? = some (.use entity) ∧
      Finds known home (own.add (Mention.declared (written.take place)) :: outer) name entity := by
  -- Every declaration that is passed on the way to the place has joined the layer there.
  induction bound generalizing place with
  | nil own => cases used
  | @use own _ entity _ _ finds _ ih =>
    cases place with
    | zero =>
      cases used
      refine ⟨entity, rfl, ?_⟩
      rw [List.take_zero, Mention.declared, Layer.add_nil]
      exact finds
    | succ place => exact ih used
  | declare listed _ ih =>
    cases place with
    | zero => cases used
    | succ place =>
      obtain ⟨entity, there, finds⟩ := ih used
      rw [Layer.add_add] at finds
      exact ⟨entity, there, finds⟩

/-- A local variable that is declared somewhere has the name that is written there. -/
theorem listed (declared : written[place]? = some (.declare name)) :
    ∃ id, resolved[place]? = some (.declare id) ∧ home.locals[id]? = some name := by
  induction bound generalizing place with
  | nil own => cases declared
  | use _ _ ih =>
    cases place with
    | zero => cases declared
    | succ place => exact ih declared
  | @declare _ _ id _ _ listed _ ih =>
    cases place with
    | zero =>
      cases declared
      exact ⟨id, rfl, listed⟩
    | succ place => exact ih declared

end Bound

namespace Surroundings

variable {around : Surroundings} {known : Inventory} {outer : List Layer}

/-- What a step through a body does: its mentions are resolved, and later ones know more. -/
structure Binds (around : Surroundings) (known : Inventory) (names later : BodyNames)
    (own : Layer) (outer : List Layer) (written : List Ast.Mention)
    (resolved : List (Mention Entity LocalId)) : Prop where
  shows : around.Shows known later (own.add (Mention.declared written)) outer
  longer : names.locals <+: later.locals
  bound : Bound known (later.home own.path) outer own written resolved

variable {names later : BodyNames} {own : Layer} {written : List Ast.Mention}
  {resolved : List (Mention Entity LocalId)}

/-- What is looked up is found in the layers that the scopes show. -/
theorem Looks.binds (looks : around.Looks names written resolved later)
    (shows : around.Shows known names own outer) :
    around.Binds known names later own outer written resolved := by
  -- The layer of the body grows with its scope, by one name for each declaration.
  induction looks generalizing own with
  | nil names => exact ⟨by rwa [Mention.declared, Layer.add_nil], List.prefix_rfl, .nil own⟩
  | use found _ ih =>
    have late := ih shows
    have finds := (entity_finds shows found).grow (.refl known) (late.longer.map Local.written)
    exact ⟨late.shows, late.longer, .use finds late.bound⟩
  | @declare names _ name scope _ _ added same _ defined _ ih =>
    have longer : names.locals <+: names.locals ++ [added] := List.prefix_append _ _
    have wider : around.Shows known ⟨scope, names.locals ++ [added]⟩ (own.add [name]) outer := by
      refine ⟨Scope.Shows.define (shows.own.mono fun entity found declared => ?_) ?_ defined,
        shows.outer⟩
      · exact Inventory.find?_grown (.refl known) (longer.map _) declared
      · simp [Inventory.find?, BodyNames.home, same]
    have late := ih wider
    refine ⟨?_, longer.trans late.longer, .declare ?_ late.bound⟩
    · rw [Mention.declared, ← List.singleton_append, ← Layer.add_add]
      exact late.shows
    · exact getElem?_grown (late.longer.map Local.written) (by simp [same])

end Surroundings

end Coro
