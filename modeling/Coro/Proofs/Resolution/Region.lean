import Coro.Proofs.Resolution.Declaration
import Coro.Proofs.Resolution.Mention

/-!
The bodies of a description, each with the layers of names around it.

A description nests bodies: a thread has subroutines, and these have their own. Each body has a
layer of names, which are known in the bodies inside it as well, and the top level has one around
all of them. Local variables are known in their own body only, and there from their declaration on.

In the tables of the resolver a body belongs to its owner. The tables only ever grow, and each step
touches the bodies of few owners; so a body whose names are bound stays as it is.
-/

namespace Coro

/-! ## Bodies in a description -/

namespace Ast

/-- A body with the names that it declares, its local variables apart, and the layers around it. -/
structure Region where
  own : Layer
  outer : List Layer
  statements : List Statement

namespace Region

/-- The names in the body, in the order of the text. -/
def mentions (region : Region) : List Mention :=
  Statement.mentionsAll region.statements

/-- The layers in which a name is sought that the body mentions at some place. -/
def layersAt (region : Region) (place : Nat) : List Layer :=
  region.own.add (Mention.declared (region.mentions.take place)) :: region.outer

/-- All names that the body declares. -/
def full (region : Region) : Layer :=
  region.own.add (Mention.declared region.mentions)

end Region

/-- The names that a body declares for its parameters, static variables and subroutines. -/
def layer (path : Path) (parameters : List Parameter) (statics : List StaticDecl)
    (subroutines : List Coroutine) : Layer :=
  ⟨path, parameters.map Parameter.name ++ statics.map StaticDecl.name ++
    subroutines.map Coroutine.name⟩

/-- The names of a layer are those of its three parts. -/
theorem count_layer (path : Path) (parameters : List Parameter) (statics : List StaticDecl)
    (subroutines : List Coroutine) (sought : Path) :
    (layer path parameters statics subroutines).paths.count sought =
      (Layer.paths ⟨path, parameters.map Parameter.name⟩).count sought +
        (Layer.paths ⟨path, statics.map StaticDecl.name⟩).count sought +
        (Layer.paths ⟨path, subroutines.map Coroutine.name⟩).count sought := by
  simp only [layer, Layer.paths, List.map_append, List.count_append]

mutual

/-- The body of a coroutine, and those inside it. -/
def Coroutine.regions (outer : List Layer) (path : Path) : Coroutine → List Region
  | ⟨_, parameters, statics, subroutines, statements⟩ =>
    let own := layer path parameters statics subroutines
    ⟨own, outer, statements⟩ :: Coroutine.regionsAll (own :: outer) path subroutines

/-- The bodies of coroutines in the same place, and those inside them. -/
def Coroutine.regionsAll (outer : List Layer) (path : Path) : List Coroutine → List Region
  | [] => []
  | first :: rest =>
    first.regions outer (path.member first.name.value) ++ Coroutine.regionsAll outer path rest

end

/-- The name that an item declares on the top level. -/
def Item.name? : Item → Option (Located String)
  | .external name _ => some name
  | .static decl => some decl.name
  | .function written => some written.name
  | .thread written => some written.name
  | .hook name _ _ => some name
  | _ => none

/-- The bodies of an item, with the names of the top level around them. -/
def Item.regions (globals : Layer) : Item → List Region
  | .function written =>
    [⟨layer (.ofName written.name.value) written.parameters written.body.statics [], [globals],
      written.body.statements⟩]
  | .thread written => written.regions [globals] (.ofName written.name.value)
  | .hook name _ body =>
    [⟨layer (.ofName name.value) [] body.statics [], [globals], body.statements⟩]
  | .entry _ body => [⟨layer (.ofName "main") [] body.statics [], [globals], body.statements⟩]
  | _ => []

/-- The entry point, whose body has a path that no item can have. -/
def Item.isEntry : Item → Bool
  | .entry _ _ => true
  | _ => false

/-- The names on the top level. -/
def Description.globals (description : Description) : Layer :=
  ⟨⟨[]⟩, description.items.filterMap Item.name?⟩

/-- All bodies of a description. -/
def Description.regions (description : Description) : List Region :=
  description.items.flatMap (Item.regions description.globals)

end Ast

variable {region : Ast.Region} {back front : List Ast.Region} {added one two : List Path}
  {place : Nat} {owner : Owner} {path : Path} {old : Script}

/-! ## Bodies in tables -/

/-- A body with its local variables; those of coroutines keep parameters as static variables. -/
structure Script extends Home where
  parameters : List StaticId
  statements : List Stmt

/-- The paths of the local variables. -/
def Script.inner (script : Script) : List Path :=
  Layer.paths ⟨script.path, script.locals⟩

/-- The local variables of a body, each with its owner and its path. -/
def Script.listing (script : Script) (owner : Owner) : List (Owner × Entity × Path) :=
  script.locals.mapIdx fun id name => (owner, .localVar id, script.path.member name.value)

/-- There is no wish to keep the state of a coroutine, or a variable of it, in registers. -/
def Coroutine.Unhinted (known : Coroutine) : Prop :=
  known.stateHint = none ∧ ∀ var ∈ known.locals, var.hint = none

/-- The parameters are static variables of the body. -/
def Script.Anchored (script : Script) (known : Inventory) : Prop :=
  ∀ place ∈ script.parameters, ∃ (name : String) (declared : Located Path),
    known.statics[place]? = some declared ∧ declared.value = script.path.member name

/-- A script stays where it is while more is declared. -/
theorem Script.Anchored.grow {script : Script} {before after : Inventory}
    (anchored : script.Anchored before) (grown : before.GrowsTo after) :
    script.Anchored after := by
  intro place member
  obtain ⟨name, declared, listed, same⟩ := anchored place member
  exact ⟨name, declared, getElem?_grown grown.statics listed, same⟩

/-- The body of a coroutine. -/
def Coroutine.script (known : Coroutine) : Script :=
  ⟨⟨known.path, known.locals.map Local.written⟩, known.parameters, known.body⟩

/-- The body of a function. -/
def Function.script (known : Function) : Script :=
  ⟨⟨.ofName known.name, known.locals.map Local.written⟩, [], known.body⟩

/-- The body of a hook. -/
def Hook.script (known : Hook) : Script :=
  ⟨⟨.ofName known.name, known.locals.map Local.written⟩, [], known.body⟩

/-- The body of the entry point. -/
def Entry.script (known : Entry) : Script :=
  ⟨⟨.ofName "main", known.locals.map Local.written⟩, [], known.body⟩

/-- The body that an owner has in a model. -/
def Model.script? (model : Model) : Owner → Option Script
  | .global => none
  | .coroutine id => model.coroutines[id]?.map Coroutine.script
  | .function id => model.functions[id]?.map Function.script
  | .hook id => model.hooks[id]?.map Hook.script
  | .entry => some model.entry.script

/-- Where an external entity is declared. -/
def External.declaration (known : External) : Located Path :=
  ⟨.ofName known.name, known.location⟩

/-- Where a static variable is declared. -/
def StaticVariable.declaration (known : StaticVariable) : Located Path :=
  ⟨known.path, known.location⟩

/-- Where a coroutine is declared. -/
def Coroutine.declaration (known : Coroutine) : Located Path :=
  ⟨known.path, known.location⟩

/-- Where a function is declared. -/
def Function.declaration (known : Function) : Located Path :=
  ⟨.ofName known.name, known.location⟩

/-- Where a hook is declared. -/
def Hook.declaration (known : Hook) : Located Path :=
  ⟨.ofName known.name, known.location⟩

/-- The declarations of all entities of a model. -/
def Model.inventory (model : Model) : Inventory where
  externals := model.externals.map External.declaration
  statics := model.statics.map StaticVariable.declaration
  coroutines := model.coroutines.map Coroutine.declaration
  functions := model.functions.map Function.declaration
  hooks := model.hooks.map Hook.declaration

namespace Tables

/-- The body that an owner has so far. -/
def script? (tables : Tables) : Owner → Option Script
  | .global => none
  | .coroutine id => tables.coroutines[id]?.map Coroutine.script
  | .function id => tables.functions[id]?.map Function.script
  | .hook id => tables.hooks[id]?.map Hook.script
  | .entry => tables.entry.map Entry.script

/-- The declarations of all entities so far. -/
def inventory (tables : Tables) : Inventory where
  externals := tables.externals.map External.declaration
  statics := tables.statics.map StaticVariable.declaration
  coroutines := tables.coroutines.map Coroutine.declaration
  functions := tables.functions.map Function.declaration
  hooks := tables.hooks.map Hook.declaration

/-- The path that leads to where an owner declares its names. -/
def path? (tables : Tables) (owner : Owner) : Option Path :=
  if owner = .global then some ⟨[]⟩ else (tables.script? owner).map fun script => script.path

/-- A body has the path of its script. -/
theorem path?_of_script? {tables : Tables} {script : Script}
    (found : tables.script? owner = some script) : tables.path? owner = some script.path := by
  rw [path?, if_neg, found, Option.map_some]
  rintro rfl
  cases found

/-- A path leads to a name that an owner declares. -/
def Leads (tables : Tables) (owner : Owner) (path : Path) : Prop :=
  ∃ around name, tables.path? owner = some around ∧ path = around.member name

/-- All that is declared: by whom, what it is, and where it stands. -/
def listing (tables : Tables) : List (Owner × Entity × Path) :=
  tables.externals.mapIdx (fun id known => (.global, .external id, .ofName known.name)) ++
    tables.statics.mapIdx (fun id known => (known.owner, .static id, known.path)) ++
    tables.coroutines.mapIdx (fun id known =>
      (.ofParent known.parent, .coroutine id, known.path)) ++
    tables.functions.mapIdx (fun id known => (.global, .function id, .ofName known.name)) ++
    tables.hooks.mapIdx (fun id known => (.global, .hook id, .ofName known.name)) ++
    (tables.coroutines.mapIdx fun id known => known.script.listing (.coroutine id)).flatten ++
    (tables.functions.mapIdx fun id known => known.script.listing (.function id)).flatten ++
    (tables.hooks.mapIdx fun id known => known.script.listing (.hook id)).flatten ++
    tables.entry.toList.flatMap fun known => known.script.listing .entry

/-- The paths of all that is declared. -/
def paths (tables : Tables) : List Path :=
  tables.listing.map fun known => known.2.2

/-- A listing has the names inside a body. -/
theorem map_listing (script : Script) (owner : Owner) :
    (script.listing owner).map (fun known => known.2.2) = script.inner := by
  apply List.ext_getElem?
  simp [Script.listing, Script.inner, Layer.paths, Function.comp_def]

theorem map_mapIdx_eq {α β γ : Type} (entries : List α) (view : α → γ) {made : Nat → α → β}
    {sight : β → γ} (same : ∀ i entry, sight (made i entry) = view entry) :
    (entries.mapIdx made).map sight = entries.map view := by
  apply List.ext_getElem?
  simp [same, Function.comp_def]

/-- The paths of tables are those of each table. -/
theorem count_paths (tables : Tables) (path : Path) : tables.paths.count path =
    (tables.externals.map fun known => Path.ofName known.name).count path +
      (tables.statics.map fun known => known.path).count path +
      (tables.coroutines.map fun known => known.path).count path +
      (tables.functions.map fun known => Path.ofName known.name).count path +
      (tables.hooks.map fun known => Path.ofName known.name).count path +
      (tables.coroutines.flatMap fun known => known.script.inner).count path +
      (tables.functions.flatMap fun known => known.script.inner).count path +
      (tables.hooks.flatMap fun known => known.script.inner).count path +
      (tables.entry.toList.flatMap fun known => known.script.inner).count path := by
  simp only [paths, listing, List.map_append, List.map_flatten, List.count_append, List.flatMap]
  rw [map_mapIdx_eq tables.externals fun known => Path.ofName known.name,
    map_mapIdx_eq tables.statics fun known => known.path,
    map_mapIdx_eq tables.coroutines fun known => known.path,
    map_mapIdx_eq tables.functions fun known => Path.ofName known.name,
    map_mapIdx_eq tables.hooks fun known => Path.ofName known.name,
    map_mapIdx_eq tables.coroutines fun known => known.script.inner,
    map_mapIdx_eq tables.functions fun known => known.script.inner,
    map_mapIdx_eq tables.hooks fun known => known.script.inner] <;>
  simp [map_listing, Function.comp_def]

/-- Some paths join those of before, apart from a few that were there already. -/
def Gains (before after : Tables) (added : List Path) (owed : List Path := []) : Prop :=
  ∀ path, after.paths.count path + owed.count path ≤ before.paths.count path + added.count path

/-- Tables with more entities, in which only some bodies are others than before. -/
structure Extends (before after : Tables) (touched : Owner → Prop := fun _ => False) : Prop where
  inventory : before.inventory.GrowsTo after.inventory
  shapes : before.shapes.GrowsTo after.shapes
  script : ∀ owner script, ¬ touched owner → before.script? owner = some script →
    after.script? owner = some script
  path : ∀ owner script, before.script? owner = some script →
    ∃ later, after.script? owner = some later ∧ later.path = script.path

end Tables

/-- A variable stands where its path leads, starts with a value that fits, and has no wish. -/
structure StaticVariable.Tidy (known : StaticVariable) (tables : Tables) : Prop where
  leads : tables.Leads known.owner known.path
  length : LengthInRange known.length
  fits : ∀ value, known.initial = some value → known.type.Fits value
  bare : known.hint = none

/-- A coroutine stands where its path leads, is well formed, and has no wishes. -/
structure Coroutine.Tidy (known : Coroutine) (tables : Tables) (id : CoroutineId) : Prop where
  leads : tables.Leads (.ofParent known.parent) known.path
  formed : known.WellFormed tables.shapes id
  bare : known.Unhinted

namespace Tables

variable {new : Script}

/-- Every entry has a property of its place. -/
def Each {α : Type} (entries : List α) (fine : Nat → α → Prop) : Prop :=
  ∀ place entry, entries[place]? = some entry → fine place entry

/-- All that is declared stands where its path leads and is well formed. -/
structure Tidy (tables : Tables) : Prop where
  statics : Each tables.statics fun _ known => known.Tidy tables
  coroutines : Each tables.coroutines fun place known => known.Tidy tables place
  functions : Each tables.functions fun _ known => known.WellFormed tables.shapes
  hooks : Each tables.hooks fun _ known =>
    BodyWellFormed tables.shapes none false known.locals known.body
  entry : ∀ known, tables.entry = some known →
    BodyWellFormed tables.shapes none false known.locals known.body

/-- Tables with more entities, whose bodies wait. -/
structure Adds (before after : Tables) (added : List Path) : Prop extends
    before.Extends after where
  tidy : before.Tidy → after.Tidy
  gains : before.Gains after added
  fresh : ∀ owner script, after.script? owner = some script → before.script? owner = some script ∨
    script.Anchored after.inventory ∧ script.statements = []

/-- One body is replaced, and all else stays as it is. -/
structure Alters (before after : Tables) (owner : Owner) (old new : Script) : Prop extends
    before.Extends after (· = owner) where
  others : ∀ other, other ≠ owner → after.script? other = before.script? other
  placed : after.script? owner = some new
  tidy : before.Tidy → after.Tidy
  gains : before.Gains after new.inner old.inner

/-- A body of a description is that of an owner, with every name bound. -/
def Holds (tables : Tables) (owner : Owner) (region : Ast.Region) : Prop :=
  ∃ script, tables.script? owner = some script ∧ script.path = region.own.path ∧
    Bound tables.inventory script.toHome region.outer region.own region.mentions
      (Stmt.mentionsAll script.statements)

/-- Bodies of a description are resolved, by owners that were touched or are new. -/
structure Resolves (before after : Tables) (touched : Owner → Prop)
    (regions : List Ast.Region) : Prop extends before.Extends after touched where
  holds : ∀ region ∈ regions, ∃ owner, (touched owner ∨ before.script? owner = none) ∧
    after.Holds owner region
  /-- There are no other new bodies. -/
  covers : ∀ owner script, after.script? owner = some script →
    before.script? owner = some script ∨ script.Anchored after.inventory ∧
      (script.statements = [] ∨ ∃ region ∈ regions, after.Holds owner region)
  plain : ∀ region ∈ regions, region.full.Plain
  tidy : before.Tidy → after.Tidy

/-- Bodies are resolved whose parameters were declared before them. -/
structure Completes (before after : Tables) (touched : Owner → Prop) (regions : List Ast.Region)
    (owed : List Path) : Prop extends before.Resolves after touched regions where
  gains : before.Gains after (regions.flatMap fun region => region.full.paths) owed
  globals : after.globals = before.globals

variable {before after third : Tables} {touched : Owner → Prop}

/-- Tables extend themselves. -/
theorem Extends.refl (tables : Tables) : tables.Extends tables touched :=
  ⟨.refl _, .refl _, fun _ _ _ found => found, fun _ script found => ⟨script, found, rfl⟩⟩

/-- Steps that each leave most bodies alone. -/
theorem Extends.trans {one two all : Owner → Prop} (early : before.Extends after one)
    (late : after.Extends third two) (first : ∀ owner, one owner → all owner)
    (second : ∀ owner, before.script? owner ≠ none → two owner → all owner) :
    before.Extends third all where
  inventory := early.inventory.trans late.inventory
  shapes := early.shapes.trans late.shapes
  script owner script free found := by
    -- The second step may touch more, but only what was not there before the first.
    have known : before.script? owner ≠ none := by simp [found]
    exact late.script owner script (fun touched => free (second owner known touched))
      (early.script owner script (fun touched => free (first owner touched)) found)
  path owner script found := by
    obtain ⟨middle, there, same⟩ := early.path owner script found
    obtain ⟨later, still, again⟩ := late.path owner middle there
    exact ⟨later, still, again.trans same⟩

/-- A first step that touches no body. -/
theorem Extends.then (early : before.Extends after) (late : after.Extends third touched) :
    before.Extends third touched :=
  early.trans late (fun _ => False.elim) fun _ _ touched => touched

section Extended

variable (step : before.Extends after touched)

include step

/-- What is unknown later was unknown before. -/
theorem Extends.unknown (missing : after.script? owner = none) : before.script? owner = none := by
  rw [Option.eq_none_iff_forall_ne_some]
  intro script found
  obtain ⟨later, still, -⟩ := step.path owner script found
  simp [missing] at still

/-- Paths stay. -/
theorem Extends.path?_kept (found : before.path? owner = some path) :
    after.path? owner = some path := by
  unfold path? at found ⊢
  split at found
  case isTrue top => rwa [if_pos top]
  case isFalse inner =>
    rw [if_neg inner]
    obtain ⟨script, there, rfl⟩ := Option.map_eq_some_iff.mp found
    exact Option.map_eq_some_iff.mpr (step.path owner script there)

/-- A path leads where it led. -/
theorem Extends.leads (leads : before.Leads owner path) : after.Leads owner path := by
  obtain ⟨around, name, found, same⟩ := leads
  exact ⟨around, name, step.path?_kept found, same⟩

/-- A scope shows what it showed. -/
theorem Extends.shows {scope : Scope} {home : Home} {layer : Layer}
    (shows : scope.Shows before.inventory home layer) : scope.Shows after.inventory home layer :=
  shows.mono fun _ _ declared =>
    Inventory.find?_grown step.inventory List.prefix_rfl declared

/-- What is tidy stays so while more is declared. -/
theorem Extends.static_tidy {known : StaticVariable} (tidy : known.Tidy before) : known.Tidy after :=
  { tidy with leads := step.leads tidy.leads }

/-- So does a coroutine. -/
theorem Extends.coroutine_tidy {known : Coroutine} {id : CoroutineId}
    (tidy : known.Tidy before id) : known.Tidy after id :=
  { tidy with leads := step.leads tidy.leads, formed := tidy.formed.grow step.shapes }

end Extended

/-- Each entry of the tables was there before, or it is tidy. -/
structure Renews (before after : Tables) : Prop where
  statics : Each after.statics fun place known =>
    before.statics[place]? = some known ∨ known.Tidy after := by exact fun _ _ => .inl
  coroutines : Each after.coroutines fun place known =>
    before.coroutines[place]? = some known ∨ known.Tidy after place := by exact fun _ _ => .inl
  functions : Each after.functions fun place known =>
    before.functions[place]? = some known ∨ known.WellFormed after.shapes := by
      exact fun _ _ => .inl
  hooks : Each after.hooks fun place known => before.hooks[place]? = some known ∨
    BodyWellFormed after.shapes none false known.locals known.body := by exact fun _ _ => .inl
  entry : ∀ known, after.entry = some known → before.entry = some known ∨
    BodyWellFormed after.shapes none false known.locals known.body := by exact fun _ => .inl

/-- Tables stay tidy if all that is new is so. -/
theorem Renews.tidy (renews : before.Renews after) (step : before.Extends after touched)
    (tidy : before.Tidy) : after.Tidy where
  statics place known found :=
    (renews.statics place known found).elim (step.static_tidy <| tidy.statics place known ·) id
  coroutines place known found := (renews.coroutines place known found).elim
    (step.coroutine_tidy <| tidy.coroutines place known ·) id
  functions place known found :=
    (renews.functions place known found).elim (tidy.functions place known · |>.grow step.shapes) id
  hooks place known found :=
    (renews.hooks place known found).elim (tidy.hooks place known · |>.grow step.shapes) id
  entry known found := (renews.entry known found).elim (tidy.entry known · |>.grow step.shapes) id

/-- Nothing is added where nothing changes. -/
theorem Adds.refl (tables : Tables) : tables.Adds tables [] :=
  { Extends.refl tables with tidy := id, gains := fun _ => Nat.le_refl _, fresh := fun _ _ => .inl }

/-- What two steps add, in sequence. -/
theorem Adds.then (early : before.Adds after one) (late : after.Adds third two) :
    before.Adds third (one ++ two) where
  toExtends := early.toExtends.then late.toExtends
  tidy kept := late.tidy (early.tidy kept)
  gains path := by
    have first := early.gains path
    have second := late.gains path
    rw [List.count_append]
    omega
  fresh owner script found := by
    rcases late.fresh owner script found with old | new
    · refine (early.fresh owner script old).imp_right ?_
      rintro ⟨anchored, bare⟩
      exact ⟨anchored.grow late.inventory, bare⟩
    · exact .inr new

/-- Only the number of each path counts. -/
theorem Adds.of_count (adds : before.Adds after one)
    (same : ∀ path, one.count path = two.count path) : before.Adds after two :=
  { adds with gains := fun path => same path ▸ adds.gains path }

/-- A body that is not touched holds its region. -/
theorem Holds.kept (holds : before.Holds owner region) (step : before.Extends after touched)
    (free : ¬ touched owner) : after.Holds owner region := by
  obtain ⟨script, found, path, bound⟩ := holds
  exact ⟨script, step.script owner script free found, path,
    bound.grow step.inventory List.prefix_rfl⟩

/-- Bodies in a step behind one that only adds entities, of which only few were known before it. -/
theorem Adds.resolves {one all : Owner → Prop} {regions : List Ast.Region}
    (early : before.Adds after added) (late : after.Resolves third one regions)
    (known : ∀ owner, one owner → before.script? owner = none ∨ all owner) :
    before.Resolves third all regions where
  toExtends := early.toExtends.trans late.toExtends (fun _ => False.elim)
    fun owner there touched => (known owner touched).resolve_left there
  holds region member := by
    obtain ⟨owner, place, holds⟩ := late.holds region member
    refine ⟨owner, ?_, holds⟩
    rcases place with touched | missing
    · exact (known owner touched).symm
    · exact .inr (early.unknown missing)
  covers owner script found := by
    rcases late.covers owner script found with old | new
    · refine (early.fresh owner script old).imp_right ?_
      rintro ⟨anchored, bare⟩
      exact ⟨anchored.grow late.inventory, .inl bare⟩
    · exact .inr new
  plain := late.plain
  tidy kept := late.tidy (early.tidy kept)

/-- Bodies in two steps; the second one touches what was known before the first. -/
theorem Resolves.both {one two all : Owner → Prop} {regions : List Ast.Region}
    (early : before.Resolves after one front) (late : after.Resolves third two back)
    (known : ∀ owner, two owner → before.script? owner ≠ none)
    (apart : ∀ owner, one owner → ¬ two owner) (same : ∀ owner, all owner ↔ one owner ∨ two owner)
    (listed : ∀ region, region ∈ regions ↔ region ∈ front ∨ region ∈ back) :
    before.Resolves third all regions where
  toExtends := early.toExtends.trans late.toExtends
    (fun owner touched => (same owner).mpr (.inl touched))
    fun owner _ touched => (same owner).mpr (.inr touched)
  holds region member := by
    rcases (listed region).mp member with old | new
    · -- An owner from the first step is none of the second: those were known, and not touched.
      obtain ⟨owner, place, holds⟩ := early.holds region old
      refine ⟨owner, place.imp_left fun touched => (same owner).mpr (.inl touched),
        holds.kept late.toExtends fun touched => ?_⟩
      exact place.elim (fun other => apart owner other touched) (known owner touched)
    · obtain ⟨owner, place, holds⟩ := late.holds region new
      exact ⟨owner, place.imp (fun touched => (same owner).mpr (.inr touched)) early.unknown, holds⟩
  covers owner script found := by
    rcases late.covers owner script found with old | ⟨anchored, new⟩
    · refine (early.covers owner script old).imp_right ?_
      rintro ⟨anchored, new⟩
      refine ⟨anchored.grow late.inventory, new.imp_right ?_⟩
      -- The second step leaves this body as it is, whether it may touch it or not.
      rintro ⟨region, member, _, there, path, bound⟩
      cases there.symm.trans old
      exact ⟨region, (listed region).mpr (.inl member), script, found, path,
        bound.grow late.inventory List.prefix_rfl⟩
    · refine .inr ⟨anchored, new.imp_right ?_⟩
      rintro ⟨region, member, holds⟩
      exact ⟨region, (listed region).mpr (.inr member), holds⟩
  plain region member := ((listed region).mp member).elim (early.plain region) (late.plain region)
  tidy kept := late.tidy (early.tidy kept)

/-- Nothing to do is done. -/
theorem Completes.nil (tables : Tables) :
    tables.Completes tables touched [] [] :=
  { Extends.refl tables with
    holds := by simp, covers := fun _ _ => .inl, plain := by simp, tidy := id
    gains := fun _ => Nat.le_refl _, globals := rfl }

/-- Two steps complete the regions of both. -/
theorem Completes.both {one two all : Owner → Prop} {first second : List Path}
    (early : before.Completes after one front first) (late : after.Completes third two back second)
    (known : ∀ owner, two owner → before.script? owner ≠ none)
    (apart : ∀ owner, one owner → ¬ two owner) (same : ∀ owner, all owner ↔ one owner ∨ two owner) :
    before.Completes third all (front ++ back) (first ++ second) where
  toResolves := early.toResolves.both late.toResolves known apart same fun _ => List.mem_append
  gains path := by
    have one := early.gains path
    have two := late.gains path
    simp only [List.flatMap_append, List.count_append]
    omega
  globals := late.globals.trans early.globals

/-- A single body is resolved once its statements are in place. -/
theorem Resolves.single {script : Script} (early : before.Adds after added)
    (last : after.Alters third owner old script) (anchored : script.Anchored after.inventory)
    (path : script.path = region.own.path)
    (bound :
      Bound after.inventory script.toHome region.outer region.own region.mentions (Stmt.mentionsAll
      script.statements)) (plain : region.full.Plain) :
    before.Resolves third (· = owner) [region] := by
  have holds : third.Holds owner region :=
    ⟨script, last.placed, path, bound.grow last.inventory List.prefix_rfl⟩
  refine ⟨early.toExtends.then last.toExtends, ?_, fun other found there => ?_, by simpa using plain,
    fun kept => last.tidy (early.tidy kept)⟩
  · intro other member
    cases List.mem_singleton.mp member
    exact ⟨owner, .inl rfl, holds⟩
  · by_cases same : other = owner
    · subst same
      cases last.placed.symm.trans there
      exact .inr ⟨anchored.grow last.inventory, .inr ⟨region, List.mem_singleton_self _, holds⟩⟩
    · rw [last.others other same] at there
      refine (early.fresh other found there).imp_right ?_
      rintro ⟨anchored, bare⟩
      exact ⟨anchored.grow last.inventory, .inl bare⟩

/-- Entries behind the others, all with a property of their places. -/
def Behind {α : Type} (before after : List α) (fine : Nat → α → Prop) : Prop :=
  ∃ added, after = before ++ added ∧
    ∀ i entry, added[i]? = some entry → fine (before.length + i) entry

section Behind

variable {α : Type} {entries more : List α} {fine : Nat → α → Prop}

/-- Nothing new. -/
theorem Behind.refl (entries : List α) : Behind entries entries fine :=
  ⟨[], by simp, by simp⟩

/-- One entry more. -/
theorem Behind.concat {entry : α} (new : fine entries.length entry) :
    Behind entries (entries ++ [entry]) fine := by
  refine ⟨[entry], rfl, fun i found listed => ?_⟩
  cases i with
  | zero =>
    cases listed
    exact new
  | succ i => cases listed

/-- Entries stay in front. -/
theorem Behind.isPrefix (behind : Behind entries more fine) : entries <+: more := by
  obtain ⟨added, rfl, -⟩ := behind
  exact List.prefix_append _ _

/-- What stands in some place did so before, or is new there. -/
theorem Behind.cases {entry : α} (behind : Behind entries more fine)
    (found : more[place]? = some entry) : entries[place]? = some entry ∨ fine place entry := by
  obtain ⟨added, rfl, new⟩ := behind
  by_cases early : place < entries.length
  · rw [List.getElem?_append_left early] at found
    exact .inl found
  · rw [List.getElem?_append_right (Nat.le_of_not_lt early)] at found
    have here := new _ entry found
    rw [Nat.add_sub_cancel' (Nat.le_of_not_lt early)] at here
    exact .inr here

end Behind

/-- Tables with more entities behind the others; a step says only which ones it adds. -/
structure Grows (before after : Tables) : Prop where
  externals : before.externals <+: after.externals := by exact List.prefix_rfl
  statics : Behind before.statics after.statics (fun _ known => known.Tidy after) := by
    exact .refl _
  coroutines : Behind before.coroutines after.coroutines (fun place known =>
    (known.script.Anchored after.inventory ∧ known.body = []) ∧
      (before.Tidy → known.Tidy after place)) := by exact .refl _
  functions : Behind before.functions after.functions (fun _ known =>
    known.body = [] ∧ known.WellFormed after.shapes) := by exact .refl _
  hooks : Behind before.hooks after.hooks (fun _ known => known.body = [] ∧ known.locals = []) := by
    exact .refl _
  entry : before.entry = none ∧ (∀ known, after.entry = some known →
    known.body = [] ∧ known.locals = []) ∨ after.entry = before.entry := by exact .inr rfl

/-- A body that waits is well formed. -/
theorem bodyWellFormed_nil (shapes : Shapes) {locals : List Local} {body : List Stmt}
    (waits : body = [] ∧ locals = []) : BodyWellFormed shapes none false locals body := by
  obtain ⟨rfl, rfl⟩ := waits
  exact ⟨by simp, trivial⟩

/-- Entities behind the others leave all bodies as they are. -/
theorem Grows.adds (grows : before.Grows after) (gains : before.Gains after added) :
    before.Adds after added := by
  -- Each owner has its place in one of the lists, and places before the end stay.
  have kept : ∀ owner script, before.script? owner = some script →
      after.script? owner = some script := by
    intro owner script found
    cases owner with
    | global => cases found
    | coroutine id =>
      obtain ⟨known, listed, rfl⟩ := Option.map_eq_some_iff.mp found
      exact Option.map_eq_some_iff.mpr ⟨known, getElem?_grown grows.coroutines.isPrefix listed, rfl⟩
    | function id =>
      obtain ⟨known, listed, rfl⟩ := Option.map_eq_some_iff.mp found
      exact Option.map_eq_some_iff.mpr ⟨known, getElem?_grown grows.functions.isPrefix listed, rfl⟩
    | hook id =>
      obtain ⟨known, listed, rfl⟩ := Option.map_eq_some_iff.mp found
      exact Option.map_eq_some_iff.mpr ⟨known, getElem?_grown grows.hooks.isPrefix listed, rfl⟩
    | entry =>
      rcases grows.entry with ⟨missing, -⟩ | same
      · simp [script?, missing] at found
      · rwa [script?, same]
  have step : before.Extends after := ⟨⟨grows.externals.map _, grows.statics.isPrefix.map _,
      grows.coroutines.isPrefix.map _, grows.functions.isPrefix.map _, grows.hooks.isPrefix.map _⟩,
    ⟨grows.externals.map _, grows.statics.isPrefix.map _, grows.coroutines.isPrefix.map _,
      grows.functions.isPrefix.map _, grows.hooks.isPrefix.map _⟩,
    fun owner script _ => kept owner script,
    fun owner script found => ⟨script, kept owner script found, rfl⟩⟩
  have renews : before.Tidy → before.Renews after := by
    refine fun tidy => ⟨fun _ _ => grows.statics.cases, fun _ _ found =>
      (grows.coroutines.cases found).imp_right fun new => new.2 tidy, fun _ _ found =>
      (grows.functions.cases found).imp_right And.right, fun _ _ found =>
      (grows.hooks.cases found).imp_right (bodyWellFormed_nil _), fun known found => ?_⟩
    rcases grows.entry with ⟨-, waits⟩ | same
    · exact .inr (bodyWellFormed_nil _ (waits known found))
    · exact .inl (same ▸ found)
  refine ⟨step, fun tidy => (renews tidy).tidy step tidy, gains, fun owner script found => ?_⟩
  cases owner with
  | global => cases found
  | coroutine id =>
    obtain ⟨known, listed, rfl⟩ := Option.map_eq_some_iff.mp found
    exact (grows.coroutines.cases listed).imp (fun old => by simp [script?, old]) And.left
  | function id =>
    obtain ⟨known, listed, rfl⟩ := Option.map_eq_some_iff.mp found
    exact (grows.functions.cases listed).imp (fun old => by simp [script?, old])
      fun new => ⟨by simp [Script.Anchored, Function.script], new.1⟩
  | hook id =>
    obtain ⟨known, listed, rfl⟩ := Option.map_eq_some_iff.mp found
    exact (grows.hooks.cases listed).imp (fun old => by simp [script?, old])
      fun new => ⟨by simp [Script.Anchored, Hook.script], new.1⟩
  | entry =>
    obtain ⟨known, present, rfl⟩ := Option.map_eq_some_iff.mp found
    rcases grows.entry with ⟨-, waits⟩ | same
    · exact .inr ⟨by simp [Script.Anchored, Entry.script], (waits known present).1⟩
    · exact .inl (by simp [script?, ← same, present])

/-- Another body in the place of one, where no shape and no declaration changes. -/
theorem Alters.of_eq (inventory : after.inventory = before.inventory)
    (shapes : after.shapes = before.shapes)
    (others : ∀ other, other ≠ owner → after.script? other = before.script? other)
    (was : before.script? owner = some old) (placed : after.script? owner = some new)
    (path : new.path = old.path)
    (renews : before.Extends after (· = owner) → before.Tidy → before.Renews after)
    (gains : before.Gains after new.inner old.inner) : before.Alters after owner old new := by
  have step : before.Extends after (· = owner) := by
    refine ⟨inventory ▸ .refl _, shapes ▸ .refl _, fun other script free found =>
      (others other free).trans found, fun other script found => ?_⟩
    by_cases same : other = owner
    · subst same
      cases was.symm.trans found
      exact ⟨new, placed, path⟩
    · exact ⟨script, (others other same).trans found, rfl⟩
  exact { step with
    others, placed, gains, tidy := fun tidy => (renews step tidy).tidy step tidy }

section Change

variable {α β : Type} {entries : List α} {i : Nat} {old : α}

/-- A change elsewhere is not seen. -/
theorem map_modify_of_ne {change : α → α} (view : α → β) (other : i ≠ place) :
    (entries.modify i change)[place]?.map view = entries[place]?.map view := by
  simp [other]

/-- Changing an entry adds what it has then, apart from what it had before. -/
theorem count_flatMap_modify [BEq β] (view : α → List β) (change : α → α)
    (found : entries[i]? = some old) (value : β) :
    ((entries.modify i change).flatMap view).count value + (view old).count value =
      (entries.flatMap view).count value + (view (change old)).count value := by
  induction entries generalizing i with
  | nil => cases found
  | cons entry rest ih =>
    cases i with
    | zero =>
      cases found
      simp only [List.modify_zero_cons, List.flatMap_cons, List.count_append]
      omega
    | succ i =>
      have later := ih found
      simp only [List.modify_succ_cons, List.flatMap_cons, List.count_append]
      omega

end Change

/-- An owner gets another body, of which nothing is seen from outside. -/
inductive Changes (before : Tables) : Owner → Script → Script → Tables → Prop
  | coroutine {id : Nat} {known : Coroutine} (members : List (Owner × Scope))
    (change : Coroutine → Coroutine) (found : before.coroutines[id]? = some known)
    (declaration : ∀ known, (change known).declaration = known.declaration)
    (shape : ∀ known, (change known).shape = known.shape)
    (tidy : known.Tidy before id → (change known).Tidy before id) :
    Changes before (.coroutine id) known.script (change known).script
      { before with coroutines := before.coroutines.modify id change, members }
  | function {id : Nat} {known : Function} (members : List (Owner × Scope))
    (change : Function → Function) (found : before.functions[id]? = some known)
    (declaration : ∀ known, (change known).declaration = known.declaration)
    (shape : ∀ known, (change known).shape = known.shape)
    (formed : (change known).WellFormed before.shapes) :
    Changes before (.function id) known.script (change known).script
      { before with functions := before.functions.modify id change, members }
  | hook {id : Nat} {known : Hook} (members : List (Owner × Scope)) (change : Hook → Hook)
    (found : before.hooks[id]? = some known)
    (declaration : ∀ known, (change known).declaration = known.declaration)
    (shape : ∀ known, (change known).kind = known.kind)
    (formed : BodyWellFormed before.shapes none false (change known).locals (change known).body) :
    Changes before (.hook id) known.script (change known).script
      { before with hooks := before.hooks.modify id change, members }
  | entry {known : Entry} (found : before.entry = some known) (entry : Entry)
    (formed : BodyWellFormed before.shapes none false entry.locals entry.body) :
    Changes before .entry known.script entry.script { before with entry := some entry }

variable (changes : before.Changes owner old new after)

include changes

/-- What has changed is tidy where it was before, and all else was there. -/
theorem Changes.renews (step : before.Extends after (· = owner))
    (tidy : before.Tidy) : before.Renews after := by
  cases changes with
  | @coroutine id known _ _ found _ _ fine =>
    refine { coroutines := fun _ _ listed => (getElem?_modify_cases found listed).imp_right ?_ }
    rintro ⟨rfl, rfl⟩
    exact step.coroutine_tidy (fine (tidy.coroutines id known found))
  | function _ _ found _ _ formed =>
    refine { functions := fun _ _ listed => (getElem?_modify_cases found listed).imp_right ?_ }
    rintro ⟨rfl, rfl⟩
    exact formed.grow step.shapes
  | hook _ _ found _ _ formed =>
    refine { hooks := fun _ _ listed => (getElem?_modify_cases found listed).imp_right ?_ }
    rintro ⟨rfl, rfl⟩
    exact formed.grow step.shapes
  | entry _ _ formed =>
    refine { entry := ?_ }
    rintro _ ⟨rfl⟩
    exact .inr formed

/-- An owner gets another body, and all else stays as it is. -/
theorem Changes.alters : before.Alters after owner old new := by
  have renews := changes.renews
  cases changes with
  | @coroutine id known _ change found declaration shape
  | @function id known _ change found declaration shape
  | @hook id known _ change found declaration shape =>
    refine .of_eq ?inventory ?shapes (fun other free => ?_) (by simp [script?, found])
      (by simp [script?, found]) (congrArg Located.value (declaration known)) renews fun path => ?_
    case inventory => simp only [inventory, map_modify_eq _ id declaration]
    case shapes => simp only [Tables.shapes, map_modify_eq _ id shape]
    · cases other <;> first | rfl | exact map_modify_of_ne _ fun equal => free (by rw [equal])
    · -- The entity itself keeps its path, and the variables of its body are others.
      have count := count_flatMap_modify (fun known => known.script.inner) change found path
      simp only [count_paths]
      rw [map_modify_eq]
      · omega
      · exact fun known => congrArg Located.value (declaration known)
  | entry found entry =>
    refine .of_eq rfl rfl (fun other free => ?_) (by simp [script?, found]) rfl rfl renews
      fun path => ?_
    · cases other with
      | entry => exact absurd rfl free
      | _ => rfl
    · simp only [count_paths, found, Option.toList_some, List.flatMap_cons, List.flatMap_nil,
        List.append_nil]
      omega

end Tables

end Coro
