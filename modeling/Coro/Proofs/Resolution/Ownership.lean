import Coro.Proofs.Resolution
import Coro.Proofs.Resolution.Lexical
import Coro.Proofs.Resolution.Naming

/-!
Bodies refer only to static variables of the top level, and to those of the bodies around them.

What stands around a coroutine works for its thread. So a thread sees the variables of its own
coroutines, and every other body sees none but its own and the global ones.
-/

namespace Coro

variable {description : Ast.Description}

/-- Who owns each static variable, and for which thread each coroutine works. -/
structure Ownership where
  owners : List Owner
  threads : List CoroutineId

namespace Ownership

/-- Coroutines serve their thread, and everything else serves itself. -/
def Serves (known : Ownership) (owner lead : Owner) : Prop :=
  match owner with
  | .coroutine id => ∃ thread, known.threads[id]? = some thread ∧ lead = .coroutine thread
  | _ => lead = owner

/-- A static variable is global, or it belongs to something that serves the same. -/
def Opens (known : Ownership) (lead : Owner) (id : StaticId) : Prop :=
  ∃ owner, known.owners[id]? = some owner ∧ (owner = .global ∨ known.Serves owner lead)

/-- All but the static variables that belong to others. -/
def references (known : Ownership) (lead : Owner) : References where
  var var := ∀ id, var = .static id → known.Opens lead id
  callee _ := True
  subroutine _ := True

/-- All owners and threads are kept, and new ones come behind them. -/
structure GrowsTo (before after : Ownership) : Prop where
  owners : before.owners <+: after.owners
  threads : before.threads <+: after.threads

variable {before after : Ownership} {owner lead : Owner}

theorem Serves.grow (grown : before.GrowsTo after) (serves : before.Serves owner lead) :
    after.Serves owner lead := by
  cases owner with
  | coroutine id =>
    obtain ⟨thread, found, same⟩ := serves
    exact ⟨thread, getElem?_grown grown.threads found, same⟩
  | _ => exact serves

theorem GrowsTo.within (grown : before.GrowsTo after) (lead : Owner) :
    (before.references lead).Within (after.references lead) id where
  var var opened place same := by
    obtain ⟨owner, found, reason⟩ := opened place same
    exact ⟨owner, getElem?_grown grown.owners found, reason.imp_right (·.grow grown)⟩
  callee _ _ := trivial

end Ownership

namespace Ast

/-- The innermost layer with a name has its declaration. -/
theorem Region.search_path {layers : List Layer} {name : String} {found : Located Path}
    (sought : Layer.search layers name = some found) :
    ∃ layer ∈ layers, found.value = layer.path.member name := by
  obtain ⟨layer, member, here⟩ := List.exists_of_findSome?_eq_some sought
  obtain ⟨declared, listed, rfl⟩ := Option.map_eq_some_iff.mp here
  have same : declared.value = name := by simpa using List.find?_some listed
  exact ⟨layer, member, by rw [same]⟩

/-- The path of a body leads through all layers around it. -/
def Region.Nested (region : Region) : Prop :=
  ∀ layer ∈ region.outer, layer.path.names <+: region.own.path.names

mutual

theorem Coroutine.regions_nested {outer : List Layer} {path : Path} (written : Coroutine)
    (around : ∀ layer ∈ outer, layer.path.names <+: path.names) :
    ∀ region ∈ written.regions outer path, region.Nested := by
  obtain ⟨name, parameters, statics, subroutines, statements⟩ := written
  rw [Coroutine.regions]
  refine List.forall_mem_cons.mpr ⟨around, Coroutine.regionsAll_nested subroutines ?_⟩
  exact List.forall_mem_cons.mpr ⟨List.prefix_rfl, around⟩

theorem Coroutine.regionsAll_nested {outer : List Layer} {path : Path} (written : List Coroutine)
    (around : ∀ layer ∈ outer, layer.path.names <+: path.names) :
    ∀ region ∈ Coroutine.regionsAll outer path written, region.Nested := by
  cases written with
  | nil => simp [Coroutine.regionsAll]
  | cons first rest =>
    rw [Coroutine.regionsAll]
    refine List.forall_mem_append.mpr ⟨?_, Coroutine.regionsAll_nested rest around⟩
    refine Coroutine.regions_nested first fun layer member => ?_
    exact (around layer member).trans (List.prefix_append _ _)

end

/-- All bodies of a description are nested. -/
theorem Description.regions_nested (description : Description) :
    ∀ region ∈ description.regions, region.Nested := by
  intro region member
  obtain ⟨item, -, inside⟩ := List.mem_flatMap.mp member
  -- The top level has the empty path, which every other one continues.
  have top : ∀ (path : Path), ∀ layer ∈ [description.globals],
      layer.path.names <+: path.names := by
    simp [Description.globals]
  cases item with
  | thread written => exact written.regions_nested (top _) region inside
  | function written | hook _ _ body | entry _ body =>
    cases List.mem_singleton.mp inside
    exact top _
  | _ => simp [Item.regions] at inside

end Ast

namespace Model

/-- Who owns what in a model. -/
def ownership (model : Model) : Ownership :=
  ⟨model.statics.map StaticVariable.owner, model.coroutines.map Coroutine.thread⟩

/-- A body is another one, or stands around it; the top level stands around all. -/
inductive Surrounds (model : Model) (outer : Owner) : Owner → Prop where
  | self : Surrounds model outer outer
  | coroutine {id : CoroutineId} {coroutine : Coroutine} :
      model.coroutines[id]? = some coroutine →
      Surrounds model outer (.ofParent coroutine.parent) → Surrounds model outer (.coroutine id)
  | function (id : FunctionId) : Surrounds model outer .global → Surrounds model outer (.function id)
  | hook (id : HookId) : Surrounds model outer .global → Surrounds model outer (.hook id)
  | entry : Surrounds model outer .global → Surrounds model outer .entry

/-- All but the static variables of bodies that do not stand around. -/
def sight (model : Model) (owner : Owner) : References where
  var var := ∀ id, var = .static id → ∃ holder,
    model.ownership.owners[id]? = some holder ∧ model.Surrounds holder owner
  callee _ := True
  subroutine _ := True

/-- No body of a model refers to static variables but those of the bodies around it. -/
structure Scoped (model : Model) : Prop where
  bodies : ∀ owner body, model.body? owner = some body →
    Stmt.RefersAll (model.sight owner) body.statements
  parameters : ∀ (id : CoroutineId) coroutine, model.coroutines[id]? = some coroutine →
    ∀ parameter ∈ coroutine.parameters,
      model.ownership.owners[parameter]? = some (.coroutine id)

/-- No body of a model refers to static variables that belong to others. -/
structure Separated (model : Model) : Prop where
  bodies : ∀ owner lead body, model.body? owner = some body →
    model.ownership.Serves owner lead →
      Stmt.RefersAll (model.ownership.references lead) body.statements
  parameters : ∀ (id : CoroutineId) coroutine, model.coroutines[id]? = some coroutine →
    ∀ parameter ∈ coroutine.parameters,
      model.ownership.owners[parameter]? = some (.coroutine id)

variable {model : Model} {fine : String → Prop} {owner holder lead : Owner} {outer path : Path}

/-- A body whose path leads through another one is inside it. -/
theorem surrounds_of_isPrefix (orderly : model.naming.Orderly fine)
    (there : model.naming.path? holder = some outer) (here : model.naming.path? owner = some path)
    (around : outer.names <+: path.names) : model.Surrounds holder owner := by
  -- By induction on the path: it is the same, or it leads through the body around this one.
  generalize size : path.names.length = n
  induction n generalizing owner path with
  | zero =>
    obtain ⟨names⟩ := path
    obtain ⟨others⟩ := outer
    obtain rfl : names = [] := List.length_eq_zero_iff.mp size
    obtain rfl : others = [] := List.prefix_nil.mp around
    obtain rfl := orderly.path?_injective there here
    exact .self
  | succ n ih =>
    -- The last name is that of the body itself.
    have inner : ∀ {parent : Owner} {before : Path} {name : String}, path = before.member name →
        model.naming.path? parent = some before →
        holder = owner ∨ model.Surrounds holder parent := by
      rintro parent before name rfl leads
      rcases List.prefix_concat_iff.mp around with same | shorter
      · have equal : outer = before.member name := by
          obtain ⟨others⟩ := outer
          rw [Path.member, ← same]
        exact .inl (orderly.path?_injective there (equal ▸ here))
      · exact .inr (ih leads shorter (by simpa [Path.member] using size))
    rcases orderly.rooted.body_places here with ⟨-, rfl⟩ | ⟨rfl, rfl⟩ |
      ⟨parent, entity, has, before, name, leads, same, declared⟩
    · simp at size
    · rcases inner (Path.ofName_eq_member "main")
        (rfl : model.naming.path? .global = some ⟨[]⟩) with rfl | through
      · exact .self
      · exact .entry through
    · rcases inner same leads with rfl | through
      · exact .self
      · cases entity with
        | coroutine id =>
          cases has
          obtain ⟨_, found, -⟩ := declared
          simp only [naming, List.getElem?_map, Option.map_eq_some_iff, Prod.mk.injEq] at found
          obtain ⟨coroutine, listed, rfl, -⟩ := found
          exact .coroutine listed through
        | function id =>
          cases has
          obtain ⟨rfl, -⟩ := declared
          exact .function id through
        | hook id =>
          cases has
          obtain ⟨rfl, -⟩ := declared
          exact .hook id through
        | _ => cases has

/-- The path of a static variable leads into the body that owns it. -/
theorem static_holder (rooted : model.naming.Rooted) {id : StaticId} {declared : Located Path}
    {name : String} (listed : model.inventory.statics[id]? = some declared)
    (same : declared.value = outer.member name) :
    ∃ holder, model.ownership.owners[id]? = some holder ∧
      model.naming.path? holder = some outer := by
  simp only [inventory, List.getElem?_map, Option.map_eq_some_iff] at listed
  obtain ⟨known, found, rfl⟩ := listed
  have named : model.naming.statics[id]? = some (known.owner, known.path) := by
    simp [naming, found]
  obtain ⟨around, _, leads, ends, -⟩ := rooted.static_places named
  obtain ⟨rfl, -⟩ := Path.member_inj.mp (ends.symm.trans same)
  exact ⟨known.owner, by simp [ownership, found], leads⟩

/-- The statements of a body stand in its script. -/
theorem script?_of_body? {body : Body} (found : model.body? owner = some body) :
    ∃ script, model.script? owner = some script ∧ script.statements = body.statements := by
  cases owner with
  | global => cases found
  | entry =>
    cases found
    exact ⟨_, rfl, rfl⟩
  | coroutine id | function id | hook id =>
    obtain ⟨known, listed, rfl⟩ := Option.map_eq_some_iff.mp found
    exact ⟨_, Option.map_eq_some_iff.mpr ⟨known, listed, rfl⟩, rfl⟩

/-- A body that is bound mentions no static variables but those of the bodies around it. -/
theorem admitted_of_boundIn (orderly : model.naming.Orderly fine) {region : Ast.Region}
    {script : Script} (nested : region.Nested) (found : model.script? owner = some script)
    (bound : region.BoundIn model.inventory script) :
    ∀ mention ∈ Stmt.mentionsAll script.statements, (model.sight owner).AdmitsMention mention := by
  intro mention member
  cases mention with
  | declare id =>
    intro place same
    cases same
  | use entity =>
    cases entity with
    | static id =>
      intro place same
      cases same
      -- The name stands in one of the layers, and the path of its body leads through the layer.
      obtain ⟨i, small, here⟩ := List.getElem_of_mem member
      have listed := List.getElem?_eq_getElem small
      rw [here] at listed
      obtain ⟨written, mentioned⟩ : ∃ written, region.mentions[i]? = some written :=
        ⟨_, List.getElem?_eq_getElem (bound.length ▸ small)⟩
      cases written with
      | declare name =>
        obtain ⟨_, other, -⟩ := bound.declared i name mentioned
        rw [listed] at other
        cases other
      | use name =>
        obtain ⟨entity, declared, other, sought, stands⟩ := bound.used i name mentioned
        cases Option.some.inj (listed.symm.trans other)
        obtain ⟨layer, within, same⟩ := Ast.Region.search_path sought
        obtain ⟨holder, owned, leads⟩ := static_holder orderly.rooted stands same
        refine ⟨holder, owned, surrounds_of_isPrefix orderly leads (path?_of_script? found) ?_⟩
        rw [bound.path]
        rcases List.mem_cons.mp within with rfl | outside
        · exact List.prefix_rfl
        · exact nested layer outside
    | localVar id =>
      intro place same
      cases same
    | external id =>
      refine ⟨fun place same => ?_, trivial⟩
      cases same
    | function id | coroutine id | hook id => trivial

/-- What stands around a coroutine works for the same thread. -/
theorem Surrounds.serves (formed : model.WellFormed) (around : model.Surrounds holder owner)
    (serves : model.ownership.Serves owner lead) :
    holder = .global ∨ model.ownership.Serves holder lead := by
  induction around with
  | self => exact .inr serves
  | @coroutine id coroutine found around ih =>
    obtain ⟨thread, listed, rfl⟩ := serves
    cases parent : coroutine.parent with
    | none =>
      rw [parent] at around
      cases around
      exact .inl rfl
    | some outer =>
      rw [parent] at ih
      obtain ⟨-, shape, known, same⟩ := (formed.coroutines id coroutine found).parent outer parent
      obtain ⟨other, there, rfl⟩ : ∃ other, model.coroutines[outer]? = some other ∧
          other.shape = shape := by
        simpa [shapes] using known
      refine ih ⟨thread, ?_, rfl⟩
      simp only [ownership, List.getElem?_map, found, there, Option.map_some] at listed ⊢
      rw [← listed]
      exact congrArg some same
  | function _ around | hook _ around | entry around =>
    cases around
    exact .inl rfl

/-- Bodies that refer only to what stands around them refer to nothing that belongs to others. -/
theorem Scoped.separated (sighted : model.Scoped) (formed : model.WellFormed) :
    model.Separated where
  bodies owner lead body found serves := by
    refine (sighted.bodies owner body found).mono ⟨fun var seen id same => ?_, fun _ _ => trivial⟩
      fun _ _ => trivial
    obtain ⟨holder, listed, around⟩ := seen id same
    exact ⟨holder, listed, around.serves formed serves⟩
  parameters := sighted.parameters

end Model

/-- Resolved bodies refer to static variables of the bodies around them only. -/
theorem Ast.Description.resolve_scoped {resolved : Resolved}
    (done : description.resolve = .ok resolved) : resolved.model.Scoped := by
  have orderly := (resolve_named done).orderly
  refine ⟨fun owner body found => ?_, fun id coroutine found place member => ?_⟩
  · obtain ⟨script, scripted, same⟩ := Model.script?_of_body? found
    rw [← same]
    refine Stmt.refersAll_of_admitted _ fun mention member => ?_
    rcases (resolve_bodies done scripted).2 with bare | ⟨region, listed, bound⟩
    · rw [bare] at member
      cases member
    · exact Model.admitted_of_boundIn orderly (description.regions_nested region listed) scripted
        bound mention member
  · have scripted : resolved.model.script? (.coroutine id) = some coroutine.script :=
      Option.map_eq_some_iff.mpr ⟨coroutine, found, rfl⟩
    obtain ⟨name, declared, listed, same⟩ := (resolve_bodies done scripted).1 place member
    obtain ⟨holder, owned, leads⟩ := Model.static_holder orderly.rooted listed same
    rw [owned, orderly.path?_injective leads (Model.path?_of_script? scripted)]

theorem Ast.Description.resolve_separated {resolved : Resolved}
    (done : description.resolve = .ok resolved) : resolved.model.Separated := by
  obtain ⟨tables, formed, complete⟩ := resolve_tables done
  exact (resolve_scoped done).separated (Tables.toModel?_wellFormed formed complete)

end Coro
