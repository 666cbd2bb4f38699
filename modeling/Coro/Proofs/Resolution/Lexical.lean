import Coro.Proofs.Resolution.Uniqueness

/-!
Names stand for what their place in the text says.

The resolver has no rules of lexical scoping: they follow from when it adds a name to which scope.
Hints come last, and leave bodies and declarations as they are.
-/

namespace Coro

variable {description : Ast.Description}

namespace HintResolver

variable (items : List Ast.Item) {before after : Tables × List (Located Warning)} {result : Unit}

variable (done : (attachAll items).run before = .ok (result, after))

include done

/-- Hints change neither bodies nor declarations. -/
theorem attachAll_views :
    after.1.inventory = before.1.inventory ∧ after.1.script? = before.1.script? := by
  have same := attachAll_without_all items done
  refine ⟨?_, funext fun owner => ?_⟩
  · rw [← Tables.inventory_without .all, same, Tables.inventory_without]
  · rw [← Tables.script?_without .all, same, Tables.script?_without]

theorem attachAll_extends : before.1.Extends after.1 := by
  obtain ⟨inventory, scripts⟩ := attachAll_views items done
  have shapes : after.1.shapes = before.1.shapes := by
    rw [← Tables.shapes_without .all, attachAll_without_all items done, Tables.shapes_without]
  exact ⟨inventory ▸ .refl _, shapes ▸ .refl _, fun _ _ _ found => scripts ▸ found,
    fun _ script found => ⟨script, scripts ▸ found, rfl⟩⟩

end HintResolver

theorem Ast.Description.tables_hold {after : Tables} {result : Unit}
    (done : description.tables.run .empty = .ok (result, after)) :
    ∀ region ∈ description.regions, ∃ owner, after.Holds owner region := by
  intro region member
  obtain ⟨owner, -, holds⟩ := (tables_unfold done).holds region member
  exact ⟨owner, holds⟩

/-- A body of a model has its names from a body of a description. -/
structure Ast.Region.BoundIn (region : Ast.Region) (known : Inventory) (script : Script) :
    Prop where
  path : script.path = region.own.path
  length : (Stmt.mentionsAll script.statements).length = region.mentions.length
  /-- A name that is used stands for the declaration that is found in the layers around it. -/
  used : ∀ (place : Nat) (name : Located String),
    region.mentions[place]? = some (.use name) → ∃ entity found,
    (Stmt.mentionsAll script.statements)[place]? = some (.use entity) ∧
    Layer.search (region.layersAt place) name.value = some found ∧
    known.find? script.toHome entity = some found
  declared : ∀ (place : Nat) (name : Located String),
    region.mentions[place]? = some (.declare name) → ∃ id,
    (Stmt.mentionsAll script.statements)[place]? = some (.declare id) ∧
    script.locals[id]? = some name

/-- A body that is held is bound in every place. -/
theorem Tables.Holds.boundIn {tables : Tables} {owner : Owner} {region : Ast.Region}
    (holds : tables.Holds owner region) : ∃ script, tables.script? owner = some script ∧
      region.BoundIn tables.inventory script := by
  obtain ⟨script, found, path, bound⟩ := holds
  refine ⟨script, found, path, bound.length_eq, fun place name used => ?_, fun place name written =>
    bound.listed written⟩
  obtain ⟨entity, there, place, sought, declared⟩ := bound.finds used
  exact ⟨entity, place, there, sought, declared⟩

/-- A body of a resolved model is empty, or it is one of the description. -/
theorem Ast.Description.resolve_bodies {resolved : Resolved}
    (done : description.resolve = .ok resolved) {owner : Owner} {script : Script}
    (found : resolved.model.script? owner = some script) :
    script.Anchored resolved.model.inventory ∧ (script.statements = [] ∨
      ∃ region ∈ description.regions, region.BoundIn resolved.model.inventory script) := by
  obtain ⟨tables, hinted, warnings, declared, attached, complete⟩ := resolve_eq_ok done
  obtain ⟨inventory, scripts⟩ := Tables.toModel?_views complete
  obtain ⟨kept, bodies⟩ := HintResolver.attachAll_views description.items attached
  rw [scripts, bodies] at found
  rw [inventory, kept]
  rcases (tables_unfold declared).covers owner script found with impossible | ⟨anchored, covered⟩
  · cases owner <;> cases impossible
  · refine ⟨anchored, covered.imp_right ?_⟩
    rintro ⟨region, member, holds⟩
    obtain ⟨_, there, bound⟩ := holds.boundIn
    cases there.symm.trans found
    exact ⟨region, member, bound⟩

/-- Paths tell the bodies of a model, and the entities that these can refer to. -/
structure Model.Distinct (model : Model) : Prop where
  bodies : ∀ owner other script script', model.script? owner = some script →
    model.script? other = some script' → script.path = script'.path → owner = other
  entities : ∀ owner other script script' entity entity' found found',
    model.script? owner = some script → model.script? other = some script' →
    model.inventory.find? script.toHome entity = some found →
    model.inventory.find? script'.toHome entity' = some found' → found.value = found'.value →
    entity = entity' ∧ ∀ id, entity = .localVar id → owner = other

namespace Model

variable {model : Model} {owner : Owner} {script : Script}

/-- The declaration of an entity stands at the end of its path. -/
theorem places_of_find? (rooted : model.naming.Rooted) {entity : Entity} {declared : Located Path}
    (here : model.script? owner = some script)
    (found : model.inventory.find? script.toHome entity = some declared) :
    ∃ around, model.naming.Places declared.value around entity ∧
      ∀ id, entity = .localVar id → around = owner := by
  cases entity with
    simp only [Inventory.find?, inventory, List.getElem?_map, Option.map_eq_some_iff] at found
  | static id =>
    obtain ⟨known, listed, rfl⟩ := found
    exact ⟨known.owner, rooted.static_places (by simp [naming, listed, StaticVariable.declaration]),
      by simp⟩
  | coroutine id =>
    obtain ⟨known, listed, rfl⟩ := found
    exact ⟨.ofParent known.parent,
      rooted.coroutine_places (by simp [naming, listed, Coroutine.declaration]), by simp⟩
  | external id | function id | hook id =>
    obtain ⟨known, listed, rfl⟩ := found
    exact ⟨.global, Naming.global_places ⟨rfl, by simp [naming, listed]⟩, by simp⟩
  | localVar id =>
    obtain ⟨name, listed, rfl⟩ := found
    refine ⟨owner, ⟨script.path, name.value, path?_of_script? here, rfl, ?_⟩, fun _ _ => rfl⟩
    simp [Naming.Declares, locals_naming, here, listed]

/-- Where no body declares a name twice, paths tell bodies and entities. -/
theorem distinct_of_orderly {fine : String → Prop} (orderly : model.naming.Orderly fine) :
    model.Distinct where
  bodies owner other script script' here there same :=
    orderly.path?_injective (path?_of_script? here) (same ▸ path?_of_script? there)
  entities owner other script script' entity entity' found found' here there one two same := by
    obtain ⟨around, placed, inside⟩ := places_of_find? orderly.rooted here one
    obtain ⟨around', placed', inside'⟩ := places_of_find? orderly.rooted there two
    rw [← same] at placed'
    obtain ⟨rfl, rfl⟩ := orderly.places_unique placed placed'
    exact ⟨rfl, fun id equal => (inside id equal).symm.trans (inside' id equal)⟩

end Model

/--
Every name in a body stands for the declaration that lexical scoping finds.

It is sought among the parameters, static variables and subroutines of the body and the local
variables declared before, then among those of the bodies around it without their local variables,
from the inside out, and last on the top level.
-/
theorem Ast.Description.resolve_lexical {description : Ast.Description} {resolved : Resolved}
    (done : description.resolve = .ok resolved) :
    (∀ region ∈ description.regions, ∃ owner script,
      resolved.model.script? owner = some script ∧
      region.BoundIn resolved.model.inventory script) ∧ resolved.model.Distinct := by
  have named := resolve_named done
  refine ⟨fun region member => ?_, Model.distinct_of_orderly named.orderly⟩
  simp only [Ast.Description.resolve] at done
  obtain ⟨⟨_, tables⟩, declared, next⟩ := bind_eq_ok.mp done
  obtain ⟨⟨_, hinted, warnings⟩, attached, last⟩ := bind_eq_ok.mp next
  split at last
  case h_1 model complete =>
    cases pure_eq_ok.mp last
    obtain ⟨owner, holds⟩ := tables_hold declared region member
    -- Hints come behind the resolution, and change neither bodies nor declarations.
    have step := HintResolver.attachAll_extends description.items attached
    obtain ⟨script, found, bound⟩ := (holds.kept step not_false).boundIn
    obtain ⟨inventory, scripts⟩ := Tables.toModel?_views complete
    exact ⟨owner, script, (scripts owner).trans found, inventory ▸ bound⟩
  case h_2 => exact absurd last throw_ne_ok

/-- A name at the start of a line. -/
def Ast.named (name : String) (line : Nat) : Located String :=
  ⟨name, .point ⟨line, 1⟩⟩

/--
A thread whose local variable has the name of a global one.

Line by line: the global variable, the thread, its subroutine with an assignment, the local variable
that starts from what has its name, and one more assignment.
-/
def Ast.Description.shadowed : Ast.Description :=
  let byte : Located IntType := ⟨.u8, default⟩
  let copy (line : Nat) : Ast.Statement :=
    .assign ⟨named "x" line, none, default⟩ none (.name (named "x" line))
  ⟨[.static ⟨byte, named "x" 1, false, none, none⟩,
    .thread ⟨named "t" 2, [], [], [⟨named "s" 3, [], [], [], [copy 4]⟩],
      [.letVar byte (named "x" 5) none (some (.name (named "x" 5))), copy 6]⟩,
    .entry default ⟨[], [], []⟩], default⟩

/-- The name is that of the local variable only in the thread itself, and behind its declaration. -/
theorem Ast.Description.shadowed_lexical : ∃ resolved, shadowed.resolve = .ok resolved ∧
    (∃ owner script first last, resolved.model.script? owner = some script ∧
      script.path = ⟨["t"]⟩ ∧
      (Stmt.mentionsAll script.statements)[0]? = some (.use first) ∧
      resolved.model.inventory.find? script.toHome first = some ⟨⟨["x"]⟩, .point ⟨1, 1⟩⟩ ∧
      (Stmt.mentionsAll script.statements)[2]? = some (.use last) ∧
      resolved.model.inventory.find? script.toHome last = some ⟨⟨["t", "x"]⟩, .point ⟨5, 1⟩⟩) ∧
    ∃ owner script only, resolved.model.script? owner = some script ∧
      script.path = ⟨["t", "s"]⟩ ∧
      (Stmt.mentionsAll script.statements)[0]? = some (.use only) ∧
      resolved.model.inventory.find? script.toHome only = some ⟨⟨["x"]⟩, .point ⟨1, 1⟩⟩ := by
  obtain ⟨resolved, done⟩ : ∃ resolved, shadowed.resolve = .ok resolved := by
    have fine : shadowed.resolve.isOk = true := by decide +kernel
    cases given : shadowed.resolve with
    | ok resolved => exact ⟨resolved, rfl⟩
    | error fault =>
      rw [given] at fine
      cases fine
  obtain ⟨bound, -⟩ := resolve_lexical done
  refine ⟨resolved, done, ?_, ?_⟩
  · obtain ⟨owner, script, found, inside⟩ := bound shadowed.regions[0] (List.getElem_mem _)
    obtain ⟨first, global, firstThere, sought, firstIs⟩ := inside.used 0 (named "x" 5) rfl
    obtain ⟨last, own, lastThere, later, lastIs⟩ := inside.used 2 (named "x" 6) rfl
    cases sought
    cases later
    exact ⟨owner, script, first, last, found, inside.path, firstThere, firstIs, lastThere, lastIs⟩
  · obtain ⟨owner, script, found, inside⟩ := bound shadowed.regions[1] (List.getElem_mem _)
    obtain ⟨only, global, there, sought, is⟩ := inside.used 0 (named "x" 4) rfl
    cases sought
    exact ⟨owner, script, only, found, inside.path, there, is⟩

end Coro
