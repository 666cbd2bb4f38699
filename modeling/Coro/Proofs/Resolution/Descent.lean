import Coro.Proofs.Resolution.Region
import Mathlib.Data.List.Nodup

/-!
The way of the resolver through a description.

The names of the top level and of a coroutine are complete before the bodies inside are resolved, and
a body adds its local variables to its own copy of the scope only, one by one. So each body ends up
with its names bound, and with no paths but those of the names that it declares.
-/

namespace Coro

variable {written : Ast.Body} {later names : BodyNames} {role : BodyRole} {id : CoroutineId}
  {layers : List Layer} {outer : List Scope} {body : List Stmt}
  {caller parent thread : Option CoroutineId} {owner : Owner} {pending : Pending}
  {extended scope : Scope} {name : String} {after before third : Tables} {result : Unit}

/-- A scope shows a layer, and its coroutines can be called from a body. -/
structure Scope.Reaches (scope : Scope) (tables : Tables) (caller : Option CoroutineId)
    (home : Home) (layer : Layer) : Prop where
  shows : scope.Shows tables.inventory home layer
  calls : ∀ name id, scope.find? name = some (.coroutine id) →
    tables.shapes.Sees caller 0 (.coroutine id)

namespace Scope.Reaches

variable {scope extended : Scope} {tables before after : Tables} {caller : Option CoroutineId}
  {home : Home} {layer : Layer} {name : Located String} {entity : Entity} {touched : Owner → Prop}

theorem nil (tables : Tables) (caller : Option CoroutineId) (home : Home) (path : Path) :
    Reaches [] tables caller home ⟨path, []⟩ :=
  ⟨.nil _ _ _, fun _ _ found => by cases found⟩

theorem kept (reaches : scope.Reaches before caller home layer)
    (step : before.Extends after touched) : scope.Reaches after caller home layer :=
  ⟨step.shows reaches.shows, fun name id found =>
    (reaches.calls name id found).grow step.shapes (Nat.le_refl 0)⟩

/-- A scope without local variables reaches the same from everywhere. -/
theorem anywhere {path : Path} (reaches : scope.Reaches tables caller ⟨path, []⟩ layer) :
    scope.Reaches tables caller home layer :=
  ⟨reaches.shows.mono fun _ _ => Inventory.find?_home, reaches.calls⟩

/-- A new name joins the layer. -/
theorem define (reaches : scope.Reaches tables caller home layer)
    (declared : tables.inventory.find? home entity = some (name.map layer.path.member))
    (called : ∀ id, entity = .coroutine id → tables.shapes.Sees caller 0 (.coroutine id))
    (defined : scope.define name entity = .ok extended) :
    extended.Reaches tables caller home (layer.add [name]) := by
  refine ⟨reaches.shows.define declared defined, fun sought id found => ?_⟩
  rw [find?_define defined] at found
  split at found
  · exact called id (Option.some.inj found)
  · exact reaches.calls sought id found

/-- Names for variables in the same place join its layer. -/
theorem defineAll (named : List (Located String × Entity))
    (reaches : scope.Reaches tables caller home layer)
    (declared : ∀ name entity, (name, entity) ∈ named →
      tables.inventory.find? home entity = some (name.map layer.path.member) ∧
        ∀ id, entity ≠ .coroutine id)
    (defined : scope.defineAll named = .ok extended) :
    extended.Reaches tables caller home (layer.add (named.map Prod.fst)) := by
  -- One name after the other joins the layer, so the induction is for any scope and layer.
  induction named generalizing scope layer with
  | nil =>
    cases pure_eq_ok.mp defined
    rwa [List.map_nil, Layer.add_nil]
  | cons first rest ih =>
    obtain ⟨name, entity⟩ := first
    simp only [Scope.defineAll] at defined
    obtain ⟨wider, one, others⟩ := bind_eq_ok.mp defined
    obtain ⟨here, plain⟩ := declared name entity List.mem_cons_self
    have wide := reaches.define here (fun id same => absurd same (plain id)) one
    have all := ih wide (fun name entity member =>
      declared name entity (List.mem_cons_of_mem _ member)) others
    rwa [Layer.add_add] at all

/-- What a scope shows has its place in the tables. -/
theorem sound (reaches : scope.Reaches tables caller home layer) :
    scope.Sound tables.shapes caller home.locals.length := by
  intro name entity found
  have here := reaches.shows.stands name
  rw [found, Option.map_some] at here
  obtain ⟨declared, -, known⟩ := Option.map_eq_some_iff.mp here.symm
  cases entity with
  | coroutine id => exact reaches.calls name id found
  | localVar id =>
    obtain ⟨written, listed, -⟩ := Option.map_eq_some_iff.mp known.symm
    exact (List.getElem?_eq_some_iff.mp listed).1
  | _ =>
    have small := (List.getElem?_eq_some_iff.mp known.symm).1
    simpa [Tables.inventory, Tables.shapes, Shapes.Sees] using small

end Scope.Reaches

namespace Tables

variable {written : List Ast.Parameter}

/-- A body waits for its statements, and its parameters are variables in some places. -/
def Waits (tables : Tables) (owner : Owner) (path : Path) (written : List Ast.Parameter)
    (locals : List (Located String)) : Prop :=
  ∃ script, tables.script? owner = some script ∧ script.path = path ∧ script.locals = locals ∧
    List.Forall₂ (fun place (parameter : Ast.Parameter) =>
      tables.inventory.statics[place]? = some (parameter.name.map path.member))
      script.parameters written

/-- Parameters in places of their own are static variables of the body. -/
theorem anchored_of_forall₂ {script : Script} {known : Inventory}
    (placed : List.Forall₂ (fun place (parameter : Ast.Parameter) =>
      known.statics[place]? = some (parameter.name.map script.path.member))
      script.parameters written) : script.Anchored known := by
  intro place member
  obtain ⟨i, small, rfl⟩ := List.getElem_of_mem member
  have listed := (List.forall₂_iff_get.mp placed).2 i small (placed.length_eq ▸ small)
  exact ⟨_, _, listed, rfl⟩

theorem Waits.kept {touched : Owner → Prop} {path : Path} {locals : List (Located String)}
    (waits : before.Waits owner path written locals) (step : before.Extends after touched)
    (free : ¬ touched owner) : after.Waits owner path written locals := by
  obtain ⟨script, found, same, kept, placed⟩ := waits
  exact ⟨script, step.script _ script free found, same, kept,
    placed.imp fun _ _ listed => getElem?_grown step.inventory.statics listed⟩

end Tables

namespace Resolver

variable {before after : Tables} {touched : Owner → Prop}

/-! ## Declarations -/

/-- A static variable is added behind the others. -/
theorem static_adds (around : Path) {decl : Ast.StaticDecl} {id : StaticId}
    (here : before.path? owner = some around)
    (done : (static owner (around.member decl.name.value) decl).run before = .ok (id, after)) :
    before.Adds after [around.member decl.name.value] ∧
      after.inventory.statics[id]? = some (decl.name.map around.member) ∧
      after.coroutines = before.coroutines ∧ after.globals = before.globals := by
  simp only [static, run_bind_eq_ok, run_lift_eq_ok] at done
  obtain ⟨length, _, ⟨accepted, rfl⟩, initial, _, ⟨started, rfl⟩, added⟩ := done
  obtain ⟨rfl, rfl⟩ := addStatic_eq added
  refine ⟨Tables.Grows.adds { statics := .concat ⟨⟨around, _, here, rfl⟩,
    Surroundings.declaredLength_inRange accepted, staticInitial_fits started, rfl⟩ } fun path => ?_,
    by simp [Tables.inventory, StaticVariable.declaration, Located.map], rfl, rfl⟩
  simp only [Tables.count_paths, List.map_append, List.map_cons, List.map_nil, List.count_append,
    List.count_nil]
  omega

/-- The static variables of a body join its layer. -/
theorem statics_adds {home : Home} (decls : List Ast.StaticDecl) (layer : Layer)
    (here : before.path? owner = some layer.path) (reaches : scope.Reaches before caller home layer)
    (done : (statics owner layer.path scope decls).run before = .ok (extended, after)) :
    before.Adds after (Layer.paths ⟨layer.path, decls.map Ast.StaticDecl.name⟩) ∧
      after.coroutines = before.coroutines ∧ after.globals = before.globals ∧
      extended.Reaches after caller home (layer.add (decls.map Ast.StaticDecl.name)) := by
  -- The layer grows with the scope; each variable keeps its place when others follow.
  induction decls generalizing before scope layer with
  | nil =>
    obtain ⟨rfl, rfl⟩ := run_pure_eq_ok.mp done
    exact ⟨.refl _, rfl, rfl, by rwa [List.map_nil, Layer.add_nil]⟩
  | cons decl rest ih =>
    simp only [statics, run_bind_eq_ok, run_lift_eq_ok] at done
    obtain ⟨id, between, added, wider, _, ⟨defined, rfl⟩, others⟩ := done
    obtain ⟨early, listed, same, globals⟩ := static_adds layer.path here added
    have declared : between.inventory.find? home (.static id) =
        some (decl.name.map layer.path.member) := listed
    have wide := (reaches.kept early.toExtends).define declared (by simp) defined
    obtain ⟨late, still, top, all⟩ := ih (layer.add [decl.name]) (early.path?_kept here) wide others
    rw [Layer.add_add] at all
    exact ⟨early.then late, still.trans same, top.trans globals, all⟩

/-- A declared coroutine is well formed, as a thread or inside another coroutine. -/
theorem declared_wellFormed {path : Path} {written : Ast.Coroutine} (tidy : before.Tidy)
    (grown : before.shapes.GrowsTo after.shapes) (top : parent = none → thread = none)
    (inside : ∀ outer, parent = some outer → ∃ shape, before.shapes.coroutines[outer]? =
      some shape ∧ thread = some shape.thread)
    (scalars : ∀ i < written.parameters.length, after.shapes.statics[before.statics.length + i]? =
      some none)
    (shapes : after.shapes.coroutines =
      before.shapes.coroutines ++ [⟨parent, thread.getD before.coroutines.length,
      written.parameters.length⟩]) :
    (declared before path parent thread written).WellFormed after.shapes
      before.coroutines.length := by
  refine ⟨fun place member => ?_, ?_, fun alone => by simp [declared, top alone],
    fun outer around => ?_, by simp [declared], trivial⟩
  · obtain ⟨i, small, rfl⟩ := List.mem_range'.mp member
    simpa using scalars i small
  · cases parent with
    | none =>
      -- A thread works for itself.
      cases top rfl
      refine ⟨⟨none, before.coroutines.length, written.parameters.length⟩, ?_, rfl⟩
      rw [shapes]
      simp [declared, Tables.shapes]
    | some outer =>
      obtain ⟨shape, known, rfl⟩ := inside outer rfl
      obtain ⟨holder, held, rfl⟩ : ∃ holder, before.coroutines[outer]? = some holder ∧
          holder.shape = shape := by
        simpa [Tables.shapes] using known
      obtain ⟨root, there, first⟩ := (tidy.coroutines outer holder held).formed.thread
      exact ⟨root, getElem?_grown grown.coroutines there, first⟩
  · obtain ⟨shape, known, rfl⟩ := inside outer around
    have within := (List.getElem?_eq_some_iff.mp known).1
    exact ⟨by simpa [Tables.shapes] using within, shape,
      getElem?_grown grown.coroutines known, rfl⟩

/-- A coroutine is added behind the others, and waits for its body. -/
theorem declareCoroutine_adds (around : Path) {written : Ast.Coroutine}
    (here : before.path? (.ofParent parent) = some around) (top : parent = none → thread = none)
    (inside : ∀ outer, parent = some outer → ∃ shape, before.shapes.coroutines[outer]? =
      some shape ∧ thread = some shape.thread)
    (done : (declareCoroutine (around.member written.name.value) parent thread written).run before =
      .ok (id, after)) :
    before.Adds after (Layer.paths ⟨around, [written.name]⟩ ++
        Layer.paths ⟨around.member written.name.value, written.parameters.map Ast.Parameter.name⟩) ∧
      id = before.coroutines.length ∧
      after.shapes.coroutines = before.shapes.coroutines ++
        [⟨parent, thread.getD id, written.parameters.length⟩] ∧
      after.inventory.coroutines[id]? = some (written.name.map around.member) ∧
      after.Waits (.coroutine id) (around.member written.name.value) written.parameters [] ∧
      after.globals = before.globals := by
  obtain ⟨rfl, after_eq⟩ := declareCoroutine_eq done
  have shapes : after.shapes.coroutines = before.shapes.coroutines ++
      [⟨parent, thread.getD before.coroutines.length, written.parameters.length⟩] := by
    simp [after_eq, Tables.shapes, declared, Coroutine.shape]
  -- The parameters stand behind the static variables, in the same order.
  have placed : List.Forall₂ (fun place (parameter : Ast.Parameter) =>
      after.inventory.statics[place]? =
        some (parameter.name.map (around.member written.name.value).member))
      (List.range' before.statics.length written.parameters.length) written.parameters := by
    rw [List.forall₂_iff_get]
    refine ⟨by simp, fun i small within => ?_⟩
    simp [after_eq, Tables.inventory, within, parameterStatic, StaticVariable.declaration,
      Located.map]
  have there : after.script? (.coroutine before.coroutines.length) =
      some (declared before (around.member written.name.value) parent thread written).script := by
    simp [after_eq, Tables.script?]
  have leads : after.Leads (.ofParent parent) (around.member written.name.value) := by
    refine ⟨around, _, ?_, rfl⟩
    cases parent with
    | none => exact here
    | some outer =>
      simp only [Tables.path?, Owner.ofParent, Tables.script?, reduceCtorEq, if_false,
        Option.map_map, Option.map_eq_some_iff, after_eq] at here ⊢
      obtain ⟨known, found, same⟩ := here
      exact ⟨known, getElem?_grown (List.prefix_append _ _) found, same⟩
  have grown : before.shapes.GrowsTo after.shapes := by
    rw [after_eq]
    exact { Shapes.GrowsTo.refl before.shapes with
      statics := by simp [Tables.shapes], coroutines := by simp [Tables.shapes] }
  refine ⟨Tables.Grows.adds ?_ fun path => ?_, rfl, shapes,
    by simp [after_eq, Tables.inventory, Coroutine.declaration, declared, Located.map],
    ⟨_, there, rfl, rfl, placed⟩, by rw [after_eq]⟩
  · have statics : Tables.Behind before.statics after.statics fun _ known => known.Tidy after := by
      refine ⟨_, by rw [after_eq], fun i entry listed => ?_⟩
      obtain ⟨parameter, -, rfl⟩ := List.mem_map.mp (List.mem_of_getElem? listed)
      exact ⟨⟨_, _, Tables.path?_of_script? there, rfl⟩, by simp [parameterStatic, LengthInRange],
        by simp [parameterStatic], rfl⟩
    have coroutines : Tables.Behind before.coroutines after.coroutines fun place known =>
        (known.script.Anchored after.inventory ∧ known.body = []) ∧
          (before.Tidy → known.Tidy after place) := by
      rw [after_eq]
      refine .concat ⟨⟨after_eq ▸ Tables.anchored_of_forall₂ placed, rfl⟩, fun tidy =>
        after_eq ▸ ⟨leads, declared_wellFormed tidy grown top inside ?_ shapes, rfl,
          by simp [declared]⟩⟩
      intro i small
      simp [after_eq, Tables.shapes, parameterStatic, small]
    subst after_eq
    exact { statics, coroutines }
  · rw [after_eq]
    simp only [Tables.count_paths, Layer.paths, declared, Coroutine.script, Script.inner,
      List.map_append, List.map_cons, List.map_nil, List.map_map, List.flatMap_append,
      List.flatMap_cons, List.flatMap_nil, List.append_nil, List.count_append, List.count_nil]
    refine Nat.le_of_eq ?_
    simp only [Function.comp_def, parameterStatic]
    omega

/-- The subroutines of a coroutine join its layer, and wait for their bodies. -/
theorem declareSubroutines_adds {shape : CoroutineShape} (written : List Ast.Coroutine)
    (layer : Layer) (here : before.path? (.coroutine id) = some layer.path)
    (self : before.shapes.coroutines[id]? = some shape)
    (reaches : scope.Reaches before (some id) .empty layer)
    (done : (declareSubroutines layer.path id shape.thread scope written).run before =
      .ok (extended, after)) :
    before.Adds after (written.flatMap fun inner => Layer.paths ⟨layer.path, [inner.name]⟩ ++
        Layer.paths ⟨layer.path.member inner.name.value,
          inner.parameters.map Ast.Parameter.name⟩) ∧
      after.shapes.coroutines = before.shapes.coroutines ++
        written.map (fun inner => ⟨some id, shape.thread, inner.parameters.length⟩) ∧
      extended.Reaches after (some id) .empty (layer.add (written.map Ast.Coroutine.name)) ∧
      (∀ i inner, written[i]? = some inner →
        after.Waits (.coroutine (before.coroutines.length + i))
          (layer.path.member inner.name.value) inner.parameters []) ∧
      after.globals = before.globals := by
  -- Subroutines get places one behind the other, from the end of the table on.
  induction written generalizing before scope layer with
  | nil =>
    obtain ⟨rfl, rfl⟩ := run_pure_eq_ok.mp done
    exact ⟨.refl _, by simp, by rwa [List.map_nil, Layer.add_nil], by simp, rfl⟩
  | cons inner rest ih =>
    simp only [declareSubroutines, run_bind_eq_ok, run_lift_eq_ok] at done
    obtain ⟨place, between, added, wider, _, ⟨defined, rfl⟩, others⟩ := done
    have inside : ∀ outer, some id = some outer → ∃ found,
        before.shapes.coroutines[outer]? = some found ∧ some shape.thread = some found.thread := by
      rintro outer ⟨rfl⟩
      exact ⟨shape, self, rfl⟩
    obtain ⟨early, rfl, one, listed, waits, globals⟩ :=
      declareCoroutine_adds layer.path here (by simp) inside added
    have still := getElem?_grown early.shapes.coroutines self
    have declared : between.inventory.find? .empty (.coroutine before.coroutines.length) =
        some (inner.name.map layer.path.member) := listed
    -- The coroutine that declares a subroutine stands around it and works for its thread.
    have seen : between.shapes.Sees (some id) 0 (.coroutine before.coroutines.length) := by
      refine ⟨⟨some id, shape.thread, inner.parameters.length⟩, ?_, ?_⟩
      · rw [one]
        simp [Tables.shapes]
      · rintro parent ⟨rfl⟩
        exact ⟨id, shape, rfl, still, rfl, .self⟩
    have wide := (reaches.kept early.toExtends).define declared
      (fun _ same => Entity.coroutine.inj same ▸ seen) defined
    obtain ⟨late, more, all, waiting, top⟩ :=
      ih (layer.add [inner.name]) (early.path?_kept here) still wide others
    rw [Layer.add_add] at all
    have count : between.coroutines.length = before.coroutines.length + 1 := by
      simpa [Tables.shapes] using congrArg List.length one
    refine ⟨early.then late, by simp [more, one], all, fun i found listed => ?_,
      top.trans globals⟩
    cases i with
    | zero =>
      cases listed
      exact waits.kept late.toExtends not_false
    | succ i =>
      have later := waiting i found listed
      rwa [count, Nat.add_assoc, Nat.add_comm 1 i] at later

/-- The scopes around a body reach the layers around it. -/
def Around (tables : Tables) (caller : Option CoroutineId) (outer : List Scope)
    (layers : List Layer) : Prop :=
  List.Forall₂ (fun scope layer => Scope.Reaches scope tables caller .empty layer) outer layers

theorem Around.kept (around : Around before caller outer layers)
    (step : before.Extends after touched) : Around after caller outer layers :=
  around.imp fun _ _ reaches => reaches.kept step

theorem Around.sound (around : Around before caller outer layers) :
    ∀ scope ∈ outer, scope.Sound before.shapes caller 0 := by
  induction around with
  | nil => simp
  | cons here _ ih => exact List.forall_mem_cons.mpr ⟨here.sound, ih⟩

/-! ## Bodies -/

/-- The statements of a body are resolved, with every name bound. -/
structure Settled (tables : Tables) (caller : Option CoroutineId) (valued : Bool)
    (region : Ast.Region) (names later : BodyNames) (body : List Stmt) : Prop where
  bound : Bound tables.inventory (later.home region.own.path) region.outer region.own
    region.mentions (Stmt.mentionsAll body)
  plain : region.full.Plain
  locals : later.locals.map Local.written =
    names.locals.map Local.written ++ Mention.declared region.mentions
  longer : names.locals <+: later.locals
  bare : (∀ known ∈ names.locals, known.hint = none) → ∀ known ∈ later.locals, known.hint = none
  formed : BodyWellFormed tables.shapes caller valued later.locals body

/-- The statements of a body are resolved, and nothing else. -/
theorem statements_settled (own : Layer) {written : List Ast.Statement}
    (reaches : names.scope.Reaches before caller (names.home own.path) own)
    (around : Around before caller outer layers)
    (lengths : ∀ known ∈ names.locals, LengthInRange known.length)
    (suspends : role = .coroutine → caller.isSome = true)
    (calling : ∀ self, caller = some self → ∃ shape, before.shapes.coroutines[self]? = some shape)
    (done : (statements outer role names written).run before = .ok ((body, later), after)) :
    before = after ∧ Settled before caller role.valued ⟨own, layers, written⟩ names later body := by
  simp only [statements, run_bind_eq_ok, run_get_eq_ok, run_lift_eq_ok] at done
  obtain ⟨_, _, ⟨rfl, rfl⟩, resolved, rfl⟩ := done
  have shown : Surroundings.Shows ⟨before, outer, role⟩ before.inventory names own layers :=
    ⟨reaches.shows, around.imp fun _ _ reaches => reaches.shows⟩
  have sound : Surroundings.Sound ⟨before, outer, role⟩ caller role.valued :=
    ⟨around.sound, suspends, calling, rfl⟩
  obtain ⟨looks, continued, formed⟩ := Surroundings.statements_resolve sound
    ⟨by simpa [BodyNames.home] using reaches.sound, lengths⟩ false written resolved
  have binds := looks.binds shown
  exact ⟨rfl, binds.bound, binds.shows.own.plain, looks.locals, binds.longer, looks.bare,
    continued.sound.lengths, formed⟩

/-- The parameters of a coroutine make the first names of its layer. -/
theorem parameters_reach {path : Path} {parameters : List Ast.Parameter} {places : List StaticId}
    (caller : Option CoroutineId)
    (placed : List.Forall₂ (fun place (parameter : Ast.Parameter) =>
      before.inventory.statics[place]? = some (parameter.name.map path.member)) places parameters)
    (named : Scope.defineAll [] ((parameters.zip places).map fun pair =>
      (pair.1.name, Entity.static pair.2)) = .ok scope) :
    scope.Reaches before caller .empty ⟨path, parameters.map Ast.Parameter.name⟩ := by
  have names : ((parameters.zip places).map fun pair =>
      (pair.1.name, Entity.static pair.2)).map Prod.fst = parameters.map Ast.Parameter.name := by
    have firsts : (parameters.zip places).map Prod.fst = parameters :=
      List.map_fst_zip (Nat.le_of_eq placed.length_eq.symm)
    rw [← congrArg (List.map Ast.Parameter.name) firsts, List.map_map, List.map_map]
    rfl
  have all := (Scope.Reaches.nil before caller .empty path).defineAll _ (fun name entity member => by
    obtain ⟨⟨parameter, place⟩, zipped, pair⟩ := List.mem_map.mp member
    cases pair
    exact ⟨List.forall₂_zip placed.flip zipped, by simp⟩) named
  rwa [names] at all

/-- A body gets its statements, and declares the names of its region. -/
theorem Settled.completes {region : Ast.Region} {valued : Bool} {old : Script}
    {parameters : List StaticId} {added owed : List Path}
    (settled : Settled after caller valued region names later body)
    (early : before.Adds after added)
    (last : after.Alters third owner old ⟨later.home region.own.path, parameters, body⟩)
    (anchored : Script.Anchored ⟨later.home region.own.path, parameters, body⟩ after.inventory)
    (was : old.toHome = names.home region.own.path) (counted : region.own.paths = owed ++ added)
    (globals : third.globals = before.globals) :
    before.Completes third (· = owner) [region] owed where
  toResolves := .single early last anchored rfl settled.bound settled.plain
  gains path := by
    -- What the body declares is in its own layer, or it is a local variable.
    have first := early.gains path
    have second := last.gains path
    simp only [Script.inner, was, BodyNames.home, Layer.paths, settled.locals, List.map_append,
      List.count_append] at second
    simp only [List.flatMap_cons, List.flatMap_nil, List.append_nil, Ast.Region.full, Layer.add,
      Layer.paths, List.map_append, List.count_append]
    have third := congrArg (List.count path) counted
    simp only [Layer.paths, List.count_append] at third
    omega
  globals := globals

theorem script?_coroutine_eq_none {tables : Tables} :
    tables.script? (.coroutine id) = none ↔ tables.coroutines.length ≤ id := by
  simp [Tables.script?]

/-- The subroutines of a coroutine are declared with their parameters. -/
theorem count_subroutines (path : Path) (written : List Ast.Coroutine) (sought : Path) :
    (written.flatMap fun inner => Layer.paths ⟨path, [inner.name]⟩ ++
        Layer.paths ⟨path.member inner.name.value,
          inner.parameters.map Ast.Parameter.name⟩).count sought =
      (Layer.paths ⟨path, written.map Ast.Coroutine.name⟩).count sought +
        (written.flatMap fun inner => Layer.paths ⟨path.member inner.name.value,
          inner.parameters.map Ast.Parameter.name⟩).count sought := by
  induction written with
  | nil => rfl
  | cons inner rest ih =>
    have head : Layer.paths ⟨path, (inner :: rest).map Ast.Coroutine.name⟩ =
        Layer.paths ⟨path, [inner.name]⟩ ++ Layer.paths ⟨path, rest.map Ast.Coroutine.name⟩ := rfl
    simp only [List.flatMap_cons, List.count_append, ih, head]
    omega

mutual

/-- The names in a coroutine, and in all that stand inside it, are bound by their places. -/
theorem coroutine_completes {outer : List Scope} {layers : List Layer} {id : CoroutineId}
    {path : Path} (written : Ast.Coroutine) {before after : Tables} {result : Unit}
    (waits : before.Waits (.coroutine id) path written.parameters [])
    (around : Around before (some id) outer layers)
    (done : (coroutine outer id written).run before = .ok (result, after)) :
    before.Completes after (· = .coroutine id) (written.regions layers path)
      (Layer.paths ⟨path, written.parameters.map Ast.Parameter.name⟩) := by
  obtain ⟨name, parameters, statics, subroutines, body⟩ := written
  simp only [coroutine, run_bind_eq_ok, run_get_eq_ok, run_lift_eq_ok, run_modify_eq_ok] at done
  obtain ⟨_, _, ⟨rfl, rfl⟩, first, _, ⟨named, rfl⟩, wider, second, declared, _, _, ⟨rfl, rfl⟩,
    scope, third, subs, _, fourth, inner, ⟨statements, names⟩, _, bodied, rfl⟩ := done
  obtain ⟨script, scripted, rfl, unnamed, placed⟩ := waits
  obtain ⟨known, found, rfl⟩ := Option.map_eq_some_iff.mp scripted
  rw [List.getD_eq_getElem?_getD, found, Option.getD_some] at named declared subs
  change before.Completes _ _ (Ast.Coroutine.regions layers known.path _)
    (Layer.paths ⟨known.path, parameters.map Ast.Parameter.name⟩)
  have here : before.path? (.coroutine id) = some known.path := Tables.path?_of_script? scripted
  have self : before.shapes.coroutines[id]? = some known.shape := by simp [Tables.shapes, found]
  -- The layer of the body grows: parameters, static variables, subroutines.
  obtain ⟨early, same, top, wide⟩ := statics_adds statics
    ⟨known.path, parameters.map Ast.Parameter.name⟩ here (parameters_reach _ placed named) declared
  have still := getElem?_grown early.shapes.coroutines self
  obtain ⟨middle, shapes, full, waiting, top'⟩ :=
    declareSubroutines_adds subroutines _ (early.path?_kept here) still wide subs
  have shown : scope.Reaches third (some id) .empty
      (Ast.layer known.path parameters statics subroutines) := full
  have opened := early.then middle
  have outside : Around third (some id) outer layers := around.kept opened.toExtends
  have behind : ∀ i inner, subroutines[i]? = some inner →
      third.shapes.coroutines[second.coroutines.length + i]? =
        some ⟨some id, known.shape.thread, inner.parameters.length⟩ := by
    intro i inner listed
    have count : second.shapes.coroutines.length = second.coroutines.length := by
      simp [Tables.shapes]
    rw [shapes, List.getElem?_append_right (by rw [count]; exact Nat.le_add_right _ _), count,
      Nat.add_sub_cancel_left, List.getElem?_map, listed]
    rfl
  have yet := getElem?_grown middle.shapes.coroutines still
  have late := coroutines_completes subroutines yet waiting behind (.cons shown outside) inner
  simp only [Layer.add_path] at late
  -- The subroutines have places behind the coroutine, and leave it alone.
  have closed : before.Resolves fourth (fun _ => False)
      (Ast.Coroutine.regionsAll
        (Ast.layer known.path parameters statics subroutines :: layers) known.path subroutines) := by
    refine opened.resolves late.toResolves ?_
    rintro owner ⟨i, -, rfl⟩
    rw [script?_coroutine_eq_none, same]
    exact .inl (Nat.le_add_right _ i)
  obtain ⟨current, listed, kept⟩ :=
    Option.map_eq_some_iff.mp (closed.script _ _ not_false scripted)
  obtain ⟨rfl, settled⟩ := statements_settled
    (Ast.layer known.path parameters statics subroutines) (shown.kept late.toExtends).anywhere
    (outside.kept late.toExtends) (by simp) (fun _ => rfl) (by
      rintro _ ⟨rfl⟩
      exact ⟨_, getElem?_grown closed.shapes.coroutines self⟩) bodied
  have last := (Tables.Changes.coroutine ((.coroutine id, names.scope) :: fourth.members)
    (fun known => { known with locals := names.locals, body := statements }) listed
    (fun _ => rfl) (fun _ => rfl) fun tidy => { tidy with
      formed := { tidy.formed with body := settled.formed }
      bare := ⟨tidy.bare.1, settled.bare (by simp)⟩ }).alters
  have path : current.path = known.path := congrArg (fun script => script.path) kept
  have given : current.parameters = known.parameters :=
    congrArg (fun script => script.parameters) kept
  have none : current.locals.map Local.written = [] :=
    (congrArg (fun script => script.locals) kept).trans unnamed
  simp only [Coroutine.script, path, given, none] at last
  have own := settled.completes (.refl fourth) last
    ((Tables.anchored_of_forall₂ placed).grow closed.inventory)
    rfl (List.append_nil _).symm rfl
  refine ⟨closed.both own.toResolves ?_ (fun _ => False.elim) (by simp) fun region => ?_,
    fun sought => ?_, late.globals.trans (top'.trans top)⟩
  · rintro owner rfl
    simp [scripted]
  · rw [Ast.Coroutine.regions, List.mem_cons, List.mem_singleton, or_comm]
  · have one := opened.gains sought
    have two := late.gains sought
    have three := own.gains sought
    have layer := Ast.count_layer known.path parameters statics subroutines sought
    simp only [Layer.add_path, List.count_append, count_subroutines] at one
    simp only [List.flatMap_cons, List.flatMap_nil, List.append_nil] at three
    simp only [Ast.Coroutine.regions, List.flatMap_cons, List.count_append]
    omega

theorem coroutines_completes {outer : List Scope} {layers : List Layer} {id first : CoroutineId}
    {shape : CoroutineShape} {path : Path} (written : List Ast.Coroutine) {before after : Tables}
    {result : Unit} (self : before.shapes.coroutines[id]? = some shape)
    (waits : ∀ i inner, written[i]? = some inner → before.Waits (.coroutine (first + i))
      (path.member inner.name.value) inner.parameters [])
    (behind : ∀ i inner, written[i]? = some inner → before.shapes.coroutines[first + i]? =
      some ⟨some id, shape.thread, inner.parameters.length⟩)
    (around : Around before (some id) outer layers)
    (done : (coroutines outer first written).run before = .ok (result, after)) :
    before.Completes after (fun owner => ∃ i < written.length, owner = .coroutine (first + i))
      (Ast.Coroutine.regionsAll layers path written)
      (written.flatMap fun inner => Layer.paths ⟨path.member inner.name.value,
        inner.parameters.map Ast.Parameter.name⟩) := by
  cases written with
  | nil =>
    obtain ⟨-, rfl⟩ := run_pure_eq_ok.mp done
    exact .nil before
  | cons inner rest =>
    simp only [coroutines, run_bind_eq_ok] at done
    obtain ⟨_, between, one, others⟩ := done
    have next : ∀ i : Nat, first + (i + 1) = first + 1 + i := fun i => by
      rw [Nat.add_comm i, ← Nat.add_assoc]
    -- A subroutine sees all that its parent sees.
    have inside : Around before (some first) outer layers := around.imp fun _ _ reaches =>
      ⟨reaches.shows, fun name called found =>
        (reaches.calls name called found).inner self (behind 0 inner rfl) rfl rfl⟩
    have head := coroutine_completes inner (waits 0 inner rfl) inside one
    have away : ∀ i : Nat, Owner.coroutine (first + 1 + i) ≠ .coroutine first := by
      intro i equal
      have same := Owner.coroutine.inj equal
      rw [Nat.add_assoc] at same
      simp at same
    -- The other coroutines wait while the body of the first one is resolved.
    have tail := coroutines_completes rest (getElem?_grown head.shapes.coroutines self)
      (fun i inner listed => (next i ▸ waits (i + 1) inner listed).kept head.toExtends (away i))
      (fun i inner listed =>
        getElem?_grown head.shapes.coroutines (next i ▸ behind (i + 1) inner listed))
      (around.kept head.toExtends) others
    refine head.both tail ?_ ?_ fun owner => ?_
    · rintro owner ⟨i, small, rfl⟩
      obtain ⟨script, found, -⟩ := waits (i + 1) rest[i] (by simp)
      rw [next] at found
      simp [found]
    · rintro owner rfl ⟨i, -, equal⟩
      exact away i equal.symm
    · constructor
      · rintro ⟨i, small, rfl⟩
        cases i with
        | zero => exact .inl rfl
        | succ i => exact .inr ⟨i, Nat.lt_of_succ_lt_succ small, congrArg _ (next i)⟩
      · rintro (rfl | ⟨i, small, rfl⟩)
        · exact ⟨0, Nat.succ_pos _, rfl⟩
        · exact ⟨i + 1, Nat.succ_lt_succ small, congrArg _ (next i).symm⟩

end

/-- The body that waits, with the layer of the top level around it. -/
def Pending.regions (globals : Layer) : Pending → List Ast.Region
  | .thread _ written => written.regions [globals] (.ofName written.name.value)
  | .function _ written => Ast.Item.regions globals (.function written)
  | .hook _ name written =>
    [⟨Ast.layer (.ofName name) [] written.statics [], [globals], written.statements⟩]
  | .entry location written => Ast.Item.regions globals (.entry location written)

/-- The path of a body that waits. -/
def Pending.path : Pending → Path
  | .thread _ written => .ofName written.name.value
  | .function _ written => .ofName written.name.value
  | .hook _ name _ => .ofName name
  | .entry _ _ => .ofName "main"

/-- The parameters of a body that waits, where they are static variables. -/
def Pending.parameters : Pending → List Ast.Parameter
  | .thread _ written => written.parameters
  | _ => []

/-- The local variables of a body that waits: the parameters of a function. -/
def Pending.locals : Pending → List (Located String)
  | .function _ written => written.parameters.map Ast.Parameter.name
  | _ => []

/-- The paths that a body which waits has declared already. -/
def Pending.owed (pending : Pending) : List Path :=
  Layer.paths ⟨pending.path, pending.parameters.map Ast.Parameter.name ++ pending.locals⟩

/-- A body that waits has its place under its path. -/
structure Pending.Standing (tables : Tables) (pending : Pending) : Prop where
  waits : tables.Waits pending.owner pending.path pending.parameters pending.locals
  shape : ∀ id written, pending = .function id written → tables.shapes.functions[id]? =
    some ⟨written.parameters.length, written.returns.map Located.value⟩

theorem Pending.Standing.kept (standing : pending.Standing before)
    (step : before.Extends after touched) (free : ¬ touched pending.owner) :
    pending.Standing after :=
  ⟨standing.waits.kept step free, fun id written same =>
    getElem?_grown step.shapes.functions (standing.shape id written same)⟩

section Routines

variable {globals : Layer} {result : Unit}

/-- A body without subroutines gets its static variables, and then its statements. -/
theorem routine_settles (parameters : List Ast.Parameter) (locals : List Local) {full : Scope}
    {top : Scope} (here : before.path? owner = some (.ofName name))
    (reaches :
      scope.Reaches before none ⟨.ofName name, locals.map Local.written⟩ ⟨.ofName name,
      parameters.map Ast.Parameter.name⟩) (around : Around before none [top] [globals])
    (lengths : ∀ known ∈ locals, LengthInRange known.length) (plain : role ≠ .coroutine)
    (declared : (routineStatics owner name scope written).run before = .ok (full, after))
    (bodied : (statements [top] role ⟨full, locals⟩ written.statements).run after =
      .ok ((body, later), third)) :
    before.Adds after (Layer.paths ⟨.ofName name, written.statics.map Ast.StaticDecl.name⟩) ∧
      after = third ∧ after.globals = before.globals ∧
      Settled after none role.valued
        ⟨Ast.layer (.ofName name) parameters written.statics [], [globals], written.statements⟩
        ⟨full, locals⟩ later body := by
  simp only [routineStatics] at declared
  split at declared
  case h_2 => exact absurd declared run_throw_ne_ok
  case h_1 =>
    obtain ⟨early, -, same, shown⟩ := statics_adds written.statics
      ⟨.ofName name, parameters.map Ast.Parameter.name⟩ here reaches declared
    obtain ⟨rfl, settled⟩ := statements_settled
      (Ast.layer (.ofName name) parameters written.statics [])
      (by rw [Ast.layer, List.map_nil, List.append_nil]; exact shown)
      (around.kept early.toExtends) lengths (fun same => absurd same plain) (by simp) bodied
    exact ⟨early, rfl, same, settled⟩

/-- The parameters of a function make the first names of its layer. -/
theorem functionParameters_reach (path : Path) {parameters : List Ast.Parameter}
    (named : Scope.defineAll [] (parameters.mapIdx fun id parameter =>
      (parameter.name, Entity.localVar id)) = .ok scope) :
    scope.Reaches before none ⟨path, (parameters.map parameterLocal).map Local.written⟩
      ⟨path, parameters.map Ast.Parameter.name⟩ := by
  have names : (parameters.mapIdx fun id parameter =>
      (parameter.name, Entity.localVar id)).map Prod.fst = parameters.map Ast.Parameter.name := by
    apply List.ext_getElem?
    simp [Function.comp_def]
  have all := (Scope.Reaches.nil before none
      ⟨path, (parameters.map parameterLocal).map Local.written⟩ path).defineAll _
    (fun name entity member => by
      obtain ⟨i, small, pair⟩ := List.mem_mapIdx.mp member
      cases pair
      simp [Inventory.find?, small, parameterLocal, Local.written]) named
  rwa [names] at all

/-- The names in a function are bound by their places. -/
theorem function_completes {id : FunctionId} {written : Ast.Function}
    (standing : Pending.Standing before (.function id written))
    (around : Around before none [before.globals] [globals])
    (done : (function id written).run before = .ok (result, after)) :
    before.Completes after (· = .function id) (Pending.regions globals (.function id written))
      (Pending.owed (.function id written)) := by
  simp only [function, run_bind_eq_ok, run_get_eq_ok, run_lift_eq_ok, run_modify_eq_ok] at done
  obtain ⟨_, _, ⟨rfl, rfl⟩, first, _, ⟨named, rfl⟩, scope, second, declared, ⟨body, names⟩, _,
    bodied, rfl⟩ := done
  obtain ⟨script, scripted, path, kept, -⟩ := standing.waits
  have here : before.path? (.function id) = some (.ofName written.name.value) :=
    (Tables.path?_of_script? scripted).trans (congrArg some path)
  obtain ⟨early, rfl, same, settled⟩ := routine_settles written.parameters
    (written.parameters.map parameterLocal) here (functionParameters_reach _ named) around
    (by simp [parameterLocal, LengthInRange]) (by simp) declared bodied
  obtain ⟨current, listed, rfl⟩ :=
    Option.map_eq_some_iff.mp (early.script _ script not_false scripted)
  have shape : current.shape = ⟨written.parameters.length, written.returns.map Located.value⟩ := by
    have there := getElem?_grown early.shapes.functions (standing.shape id written rfl)
    simpa [Tables.shapes, listed] using there
  obtain ⟨arity, returns⟩ := FunctionShape.mk.inj shape
  have last := (Tables.Changes.function ((.function id, names.scope) :: second.members)
    (fun known => { known with locals := names.locals, body }) listed (fun _ => rfl) (fun _ => rfl)
    ⟨fun i small => getElem?_grown (settled.longer.map _) (by simp [parameterLocal, ← arity, small]),
      by simpa [returns, BodyRole.valued_function] using settled.formed⟩).alters
  have named : Path.ofName current.name = .ofName written.name.value := path
  have given : current.locals.map Local.written =
      (written.parameters.map parameterLocal).map Local.written :=
    kept.trans (by simp [Pending.locals, parameterLocal, Local.written])
  simp only [Function.script, named, given] at last
  exact settled.completes early last (by simp [Script.Anchored]) rfl
    (by simp [Pending.owed, Pending.path, Pending.parameters, Pending.locals, Ast.layer, Layer.paths])
    same

/-- The names in a hook are bound by their places. -/
theorem hook_completes {id : HookId} (standing : Pending.Standing before (.hook id name written))
    (around : Around before none [before.globals] [globals])
    (done : (hook id name written).run before = .ok (result, after)) :
    before.Completes after (· = .hook id) (Pending.regions globals (.hook id name written)) [] := by
  simp only [hook, run_bind_eq_ok, run_get_eq_ok, run_modify_eq_ok] at done
  obtain ⟨_, _, ⟨rfl, rfl⟩, scope, second, declared, ⟨body, names⟩, _, bodied, rfl⟩ := done
  obtain ⟨script, scripted, path, kept, -⟩ := standing.waits
  have here : before.path? (.hook id) = some (.ofName name) :=
    (Tables.path?_of_script? scripted).trans (congrArg some path)
  obtain ⟨early, rfl, same, settled⟩ := routine_settles [] [] here
    (.nil _ _ _ _) around (by simp) (by simp) declared bodied
  obtain ⟨current, listed, rfl⟩ :=
    Option.map_eq_some_iff.mp (early.script _ script not_false scripted)
  have last := (Tables.Changes.hook ((.hook id, names.scope) :: second.members)
    (fun known => { known with locals := names.locals, body }) listed (fun _ => rfl) (fun _ => rfl)
    settled.formed).alters
  have named : Path.ofName current.name = .ofName name := path
  have given : current.locals.map Local.written = [] := kept
  simp only [Hook.script, named, given] at last
  exact settled.completes early last (by simp [Script.Anchored]) rfl (by simp [Ast.layer]) same

/-- The names in the entry point are bound by their places. -/
theorem entry_completes {location : Location}
    (standing : Pending.Standing before (.entry location written))
    (around : Around before none [before.globals] [globals])
    (done : (entry location written).run before = .ok (result, after)) :
    before.Completes after (· = .entry) (Pending.regions globals (.entry location written)) [] := by
  simp only [entry, run_bind_eq_ok, run_get_eq_ok, run_modify_eq_ok] at done
  obtain ⟨_, _, ⟨rfl, rfl⟩, scope, second, declared, ⟨body, names⟩, _, bodied, rfl⟩ := done
  obtain ⟨script, scripted, path, kept, -⟩ := standing.waits
  have here : before.path? .entry = some (.ofName "main") :=
    (Tables.path?_of_script? scripted).trans (congrArg some path)
  obtain ⟨early, rfl, same, settled⟩ := routine_settles [] [] here
    (.nil _ _ _ _) around (by simp) (by simp) declared bodied
  obtain ⟨current, listed, rfl⟩ :=
    Option.map_eq_some_iff.mp (early.script _ script not_false scripted)
  have last := (Tables.Changes.entry listed ⟨names.locals, body, location⟩ settled.formed).alters
  have given : current.locals.map Local.written = [] := kept
  simp only [Entry.script, given] at last
  exact settled.completes early last (by simp [Script.Anchored]) rfl (by simp [Ast.layer]) same

end Routines

/-- The names in a body that has waited are bound by their places. -/
theorem pending_completes {globals : Layer} (standing : pending.Standing before)
    (around : Around before none [before.globals] [globals])
    (done : pending.resolve.run before = .ok (result, after)) :
    before.Completes after (· = pending.owner) (pending.regions globals) pending.owed := by
  cases pending with
  | thread id written =>
    simp only [Pending.resolve, run_bind_eq_ok, run_get_eq_ok] at done
    obtain ⟨_, _, ⟨rfl, rfl⟩, resolved⟩ := done
    have inside : Around before (some id) [before.globals] [globals] :=
      around.imp fun _ _ reaches => ⟨reaches.shows, fun name called found =>
        (reaches.calls name called found).anywhere (some id)⟩
    have owed : (Pending.thread id written).owed =
        Layer.paths ⟨.ofName written.name.value, written.parameters.map Ast.Parameter.name⟩ := by
      simp [Pending.owed, Pending.path, Pending.parameters, Pending.locals]
    rw [owed]
    exact coroutine_completes written standing.waits inside resolved
  | function id written => exact function_completes standing around done
  | hook id name written => exact hook_completes standing around done
  | entry location written => exact entry_completes standing around done

/-- The names in all bodies that have waited are bound by their places. -/
theorem allPending_completes (waiting : List Pending) (globals : Layer)
    (standing : ∀ pending ∈ waiting, pending.Standing before)
    (distinct : (waiting.map Pending.owner).Nodup)
    (around : Around before none [before.globals] [globals])
    (done : (waiting.forM Pending.resolve).run before = .ok (result, after)) :
    before.Completes after (· ∈ waiting.map Pending.owner)
      (waiting.flatMap (Pending.regions globals)) (waiting.flatMap Pending.owed) := by
  -- By induction on the bodies: all names of the top level are there before the first of them.
  induction waiting generalizing before with
  | nil =>
    obtain ⟨-, rfl⟩ := run_pure_eq_ok.mp done
    exact .nil before
  | cons first rest ih =>
    obtain ⟨_, between, one, others⟩ := run_bind_eq_ok.mp done
    rw [List.map_cons, List.nodup_cons] at distinct
    have head := pending_completes (standing first List.mem_cons_self) around one
    have again : Around between none [between.globals] [globals] := by
      rw [head.globals]
      exact around.kept head.toExtends
    -- A body that waits is another one than the first, which leaves it alone.
    have still : ∀ pending ∈ rest, pending.Standing between := fun pending member =>
      (standing pending (List.mem_cons_of_mem _ member)).kept head.toExtends fun same =>
        distinct.1 (same ▸ List.mem_map_of_mem member)
    refine head.both (ih still distinct.2 again others) ?_ ?_ fun owner => by simp
    · rintro owner listed
      obtain ⟨pending, member, rfl⟩ := List.mem_map.mp listed
      obtain ⟨script, found, -⟩ := (standing pending (List.mem_cons_of_mem _ member)).waits
      simp [found]
    · rintro owner rfl listed
      exact distinct.1 listed

/-! ## Items -/

/-- An item joins the layer of the top level, and its body waits. -/
structure Opens (before after : Tables) (top : Layer) (item : Ast.Item)
    (waiting : Option Pending) : Prop where
  step : before.Adds after (Layer.paths ⟨⟨[]⟩, item.name?.toList⟩ ++
    waiting.toList.flatMap Pending.owed)
  reaches : after.globals.Reaches after none .empty (top.add item.name?.toList)
  standing : ∀ pending ∈ waiting, pending.Standing after
  fresh : ∀ pending ∈ waiting, before.script? pending.owner = none
  regions : ∀ globals, waiting.toList.flatMap (Pending.regions globals) = item.regions globals
  entries : (waiting.toList.map Pending.owner).count .entry = [item].countP Ast.Item.isEntry

section Items

variable {top : Layer} {between : Tables} {name : Located String} {entity : Entity}
  {item : Ast.Item} {waiting : Option Pending} {result : Unit}

/-- A declared entity gets its name on the top level. -/
theorem Opens.named (done : (defineGlobal name entity).run between = .ok (result, after))
    (root : top.path = ⟨[]⟩) (reaches : before.globals.Reaches before none .empty top)
    (step : before.Adds between (Layer.paths ⟨⟨[]⟩, [name]⟩ ++ waiting.toList.flatMap Pending.owed))
    (globals : between.globals = before.globals) (new : item.name? = some name)
    (declared : between.inventory.find? .empty entity = some (name.map (Path.member ⟨[]⟩)))
    (called : ∀ id, entity = .coroutine id → between.shapes.Sees none 0 (.coroutine id))
    (standing : ∀ pending ∈ waiting, pending.Standing between)
    (fresh : ∀ pending ∈ waiting, before.script? pending.owner = none)
    (regions : ∀ globals, waiting.toList.flatMap (Pending.regions globals) = item.regions globals)
    (entries : (waiting.toList.map Pending.owner).count .entry =
      [item].countP Ast.Item.isEntry) :
    Opens before after top item waiting := by
  simp only [defineGlobal, run_bind_eq_ok, run_get_eq_ok, run_lift_eq_ok,
    run_modify_eq_ok] at done
  obtain ⟨_, _, ⟨rfl, rfl⟩, wider, _, ⟨defined, rfl⟩, rfl⟩ := done
  -- The scope of the top level is no part of what was declared.
  have last : between.Adds { between with globals := wider } [] :=
    Tables.Grows.adds {} fun _ => Nat.le_refl _
  have wide : between.globals.Reaches between none .empty top := by
    rw [globals]
    exact reaches.kept step.toExtends
  refine ⟨by simpa [new] using step.then last, ?_, fun pending present =>
    (standing pending present).kept last.toExtends not_false, fresh, regions, entries⟩
  rw [new]
  refine (wide.define ?_ called defined).kept last.toExtends
  rw [root]
  exact declared

/-- An item without a name of its own leaves the top level as it is. -/
theorem Opens.unnamed (reaches : before.globals.Reaches before none .empty top)
    (step : before.Adds after []) (globals : after.globals = before.globals)
    (new : item.name? = none) (standing : ∀ pending ∈ waiting, pending.Standing after)
    (bare : waiting.toList.flatMap Pending.owed = [])
    (fresh : ∀ pending ∈ waiting, before.script? pending.owner = none)
    (regions : ∀ globals, waiting.toList.flatMap (Pending.regions globals) = item.regions globals)
    (entries : (waiting.toList.map Pending.owner).count .entry =
      [item].countP Ast.Item.isEntry) :
    Opens before after top item waiting := by
  refine ⟨by simpa [new, bare, Layer.paths] using step, ?_, standing, fresh, regions, entries⟩
  rw [new, globals, Option.toList_none, Layer.add_nil]
  exact reaches.kept step.toExtends

/-- Declaring an item adds its name to the top level. -/
theorem declare_opens (item : Ast.Item) (root : top.path = ⟨[]⟩)
    (reaches : before.globals.Reaches before none .empty top)
    (done : (declare item).run before = .ok (waiting, after)) :
    Opens before after top item waiting := by
  -- A named item is declared first and named then; its body waits for all other names.
  cases declare_declared done with
  | header | cflags =>
    exact .unnamed reaches (Tables.Grows.adds {} fun _ => Nat.le_refl _) rfl rfl (by simp) rfl
      (by simp) (fun _ => rfl) rfl
  | @external name kind _ named =>
    refine .named named root reaches (Tables.Grows.adds { externals := List.prefix_append _ _ }
      fun path => ?_) rfl rfl (by simp [Inventory.find?, Tables.inventory, External.declaration,
        Located.map, Path.ofName_eq_member]) (by simp) (by simp) (by simp) (fun _ => rfl) rfl
    simp [Tables.count_paths, Layer.paths, Path.ofName_eq_member]
    omega
  | @static decl id between _ added named =>
    obtain ⟨step, listed, -, globals⟩ := static_adds ⟨[]⟩ rfl added
    exact .named named root reaches step globals rfl listed (by simp) (by simp) (by simp)
      (fun _ => rfl) rfl
  | @function written _ named =>
    refine .named named root reaches (Tables.Grows.adds { functions := .concat ⟨rfl, ?formed⟩ }
      fun path => ?gains) rfl rfl (by simp [Inventory.find?, Tables.inventory, Function.declaration,
        Located.map, Path.ofName_eq_member]) (by simp) ?standing ?fresh (fun _ => rfl) rfl
    case formed =>
      -- A function without its body has only its parameters.
      refine ⟨fun i small => ?_, by simp [parameterLocal, LengthInRange], trivial⟩
      have within : i < written.parameters.length := small
      simp [parameterLocal, within]
    case gains =>
      rw [List.count_append]
      simp [Tables.count_paths, Layer.paths, Path.ofName_eq_member, Function.script, Script.inner,
        Pending.owed, Pending.path, Pending.parameters, Pending.locals, parameterLocal,
        Local.written, Function.comp_def]
      omega
    case standing =>
      rintro pending ⟨⟩
      refine ⟨⟨_, by simp [Pending.owner, Tables.script?]; rfl, rfl, ?_, .nil⟩, ?_⟩
      · simp [Function.script, Pending.locals, parameterLocal, Local.written]
      · rintro _ _ ⟨⟩
        simp [Tables.shapes, Function.shape]
    case fresh =>
      rintro pending ⟨⟩
      simp [Pending.owner, Tables.script?]
  | @thread written id between _ added named =>
    obtain ⟨step, rfl, shapes, listed, waits, globals⟩ :=
      declareCoroutine_adds ⟨[]⟩ rfl (fun _ => rfl) (by simp) added
    have seen : between.shapes.Sees none 0 (.coroutine before.coroutines.length) := by
      refine ⟨⟨none, before.coroutines.length, written.parameters.length⟩, ?_, by simp⟩
      rw [shapes]
      simp [Tables.shapes]
    refine .named named root reaches ?step globals rfl listed
      (fun _ same => Entity.coroutine.inj same ▸ seen) ?standing ?fresh (fun _ => by
        simp [Pending.regions, Ast.Item.regions]) rfl
    case step =>
      simpa [Pending.owed, Pending.path, Pending.parameters, Pending.locals,
        Path.ofName_eq_member] using step
    case standing =>
      rintro pending ⟨⟩
      exact ⟨waits, by simp⟩
    case fresh =>
      rintro pending ⟨⟩
      simp [Pending.owner, Tables.script?]
  | @hook name kind body _ named =>
    refine .named named root reaches (Tables.Grows.adds { hooks := .concat ⟨rfl, rfl⟩ }
      fun path => ?gains) rfl rfl (by simp [Inventory.find?, Tables.inventory, Hook.declaration,
        Located.map, Path.ofName_eq_member]) (by simp) ?standing ?fresh (fun _ => rfl) rfl
    case gains =>
      simp [Tables.count_paths, Layer.paths, Path.ofName_eq_member, Hook.script, Script.inner,
        Pending.owed, Pending.parameters, Pending.locals]
      omega
    case standing =>
      rintro pending ⟨⟩
      exact ⟨⟨_, by simp [Pending.owner, Tables.script?]; rfl, rfl, rfl, .nil⟩, by simp⟩
    case fresh =>
      rintro pending ⟨⟩
      simp [Pending.owner, Tables.script?]
  | entry location body free =>
    refine .unnamed reaches (Tables.Grows.adds { entry := .inl ⟨free, by simp⟩ } fun path => ?gains)
      rfl rfl ?standing rfl ?fresh (fun _ => by simp [Pending.regions, Ast.Item.regions]) rfl
    case gains => simp [Tables.count_paths, free, Entry.script, Script.inner, Layer.paths]
    case standing =>
      rintro pending ⟨⟩
      exact ⟨⟨_, rfl, rfl, rfl, .nil⟩, by simp⟩
    case fresh =>
      rintro pending ⟨⟩
      simp [Pending.owner, Tables.script?, free]
  | useReg | tune =>
    exact .unnamed reaches (.refl _) rfl rfl (by simp) rfl (by simp) (fun _ => rfl) rfl

end Items

/-- Declaring all items fills the top level, and all bodies wait. -/
theorem declareAll_opens (items : List Ast.Item) (top : Layer) {waiting : List Pending}
    (root : top.path = ⟨[]⟩) (reaches : before.globals.Reaches before none .empty top)
    (done : (declareAll items).run before = .ok (waiting, after)) :
    before.Adds after (Layer.paths ⟨⟨[]⟩, items.filterMap Ast.Item.name?⟩ ++
        waiting.flatMap Pending.owed) ∧
      after.globals.Reaches after none .empty (top.add (items.filterMap Ast.Item.name?)) ∧
      (∀ pending ∈ waiting, pending.Standing after ∧ before.script? pending.owner = none) ∧
      (waiting.map Pending.owner).Nodup ∧
      (∀ globals, waiting.flatMap (Pending.regions globals) =
        items.flatMap (Ast.Item.regions globals)) ∧
      (waiting.map Pending.owner).count .entry = items.countP Ast.Item.isEntry := by
  induction items generalizing before top waiting with
  | nil =>
    obtain ⟨rfl, rfl⟩ := run_pure_eq_ok.mp done
    exact ⟨.refl _, by rwa [List.filterMap_nil, Layer.add_nil], by simp, by simp, by simp, rfl⟩
  | cons item rest ih =>
    simp only [declareAll, run_bind_eq_ok, run_pure_eq_ok] at done
    obtain ⟨first, between, one, others, _, more, rfl, rfl⟩ := done
    have early := declare_opens item root reaches one
    obtain ⟨late, all, standing, distinct, regions, entries⟩ :=
      ih (top.add item.name?.toList) root early.reaches more
    have names : (item :: rest).filterMap Ast.Item.name? =
        item.name?.toList ++ rest.filterMap Ast.Item.name? := by
      cases named : item.name? <;> simp [named]
    refine ⟨?_, ?_, fun pending member => ?_, ?_, fun globals => ?_, ?_⟩
    · refine (early.step.then late).of_count fun path => ?_
      rw [names]
      simp only [Layer.paths, List.flatMap_append, List.map_append, List.count_append]
      omega
    · rwa [names, ← Layer.add_add]
    · rcases List.mem_append.mp member with old | new
      · have present := Option.mem_toList.mp old
        exact ⟨(early.standing pending present).kept late.toExtends not_false,
          early.fresh pending present⟩
      · exact ⟨(standing pending new).1, early.step.unknown (standing pending new).2⟩
    · -- A body that is known already is none of those to come.
      rw [List.map_append, List.nodup_append]
      refine ⟨by cases first <;> simp, distinct, ?_⟩
      rintro _ old _ new rfl
      obtain ⟨pending, present, same⟩ := List.mem_map.mp old
      obtain ⟨next, member, equal⟩ := List.mem_map.mp new
      obtain ⟨script, found, -⟩ := (early.standing pending (Option.mem_toList.mp present)).waits
      have missing := (standing next member).2
      rw [equal, ← same, found] at missing
      cases missing
    · rw [List.flatMap_append, early.regions, regions, List.flatMap_cons]
    · rw [List.map_append, List.count_append, early.entries, entries, ← List.countP_append]
      rfl

end Resolver

/-- Nothing is declared, so all of it is tidy. -/
theorem Tables.empty_tidy : Tables.empty.Tidy := by
  constructor <;> simp [Tables.empty, Tables.Each]

namespace Ast.Description

/-- Tables have the bodies and the names of a description, and no others. -/
structure Unfolds (description : Description) (after : Tables) : Prop extends
    Tables.empty.Resolves after (fun _ => False) description.regions where
  top : description.globals.Plain
  entries : description.items.countP Item.isEntry ≤ 1
  gains : Tables.empty.Gains after
    (description.globals.paths ++ description.regions.flatMap fun region => region.full.paths)

/-- The tables of a description have its bodies and no others, with every name bound. -/
theorem tables_unfold {description : Description}
    (done : description.tables.run .empty = .ok (result, after)) : description.Unfolds after := by
  obtain ⟨waiting, between, declared, next⟩ := tables_eq_ok done
  -- First all items are declared, then all bodies are resolved under the complete top level.
  obtain ⟨opened, reaches, standing, distinct, regions, entries⟩ :=
    Resolver.declareAll_opens _ ⟨⟨[]⟩, []⟩ rfl (.nil _ _ _ _) declared
  have completed := Resolver.allPending_completes waiting description.globals
    (fun pending member => (standing pending member).1) distinct (.cons reaches .nil) next
  rw [regions] at completed
  refine ⟨opened.resolves completed.toResolves fun owner _ => .inl (by cases owner <;> rfl),
    reaches.shows.plain, entries ▸ List.nodup_iff_count_le_one.mp distinct .entry, fun path => ?_⟩
  have one := opened.gains path
  have two := completed.gains path
  simp only [List.count_append, globals, Description.regions, List.count_nil] at one two ⊢
  omega

end Ast.Description

end Coro
