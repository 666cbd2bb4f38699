import Coro.Proofs.Resolution
import Coro.Proofs.Resolution.Namespace

/-!
No body of a model declares a name twice, and no declared name is reserved.

A description has one layer of names for each body, and each layer has a name once. The path of a
body is that of a name in the layer around it, so by induction on their lengths all paths differ.
The tables declare what the layers of the description have.
-/

namespace Coro

variable {description : Ast.Description}

theorem Path.eq_top_or_member (path : Path) :
    path = ⟨[]⟩ ∨ ∃ around name, path = Path.member around name := by
  obtain ⟨names⟩ := path
  rcases List.eq_nil_or_concat names with rfl | ⟨front, last, rfl⟩
  · exact .inl rfl
  · exact .inr ⟨⟨front⟩, last, by simp [Path.member]⟩

namespace Layer

/-- Each path of a layer ends in one of its names, which is not reserved. -/
theorem Plain.not_reserved {layers : List Layer} (plain : ∀ layer ∈ layers, layer.Plain)
    {around : Path} {name : String} (found : around.member name ∈ layers.flatMap paths) :
    isReserved name = false ∧ ∃ layer ∈ layers, name ∈ layer.names.map Located.value := by
  obtain ⟨layer, member, inside⟩ := List.mem_flatMap.mp found
  obtain ⟨declared, listed, same⟩ := List.mem_map.mp inside
  obtain ⟨-, rfl⟩ := Path.member_inj.mp same
  exact ⟨(plain layer member).free declared listed, layer, member, List.mem_map_of_mem listed⟩

/-- A path occurs at most as often as there are layers in the place that it leads into. -/
theorem Plain.count_le {layers : List Layer} (plain : ∀ layer ∈ layers, layer.Plain)
    (around : Path) (name : String) :
    (layers.flatMap paths).count (around.member name) ≤ (layers.map path).count around := by
  induction layers with
  | nil => simp
  | cons layer rest ih =>
    obtain ⟨first, others⟩ := List.forall_mem_cons.mp plain
    have later := ih others
    have here : layer.paths.count (around.member name) ≤ [layer.path].count around := by
      by_cases same : layer.path = around
      · subst same
        have distinct : layer.paths.Nodup := by
          have injective : Function.Injective layer.path.member := fun _ _ equal =>
            (Path.member_inj.mp equal).2
          simpa [paths, Function.comp_def] using first.distinct.map injective
        simpa using List.nodup_iff_count_le_one.mp distinct _
      · rw [List.count_eq_zero_of_not_mem]
        · exact Nat.zero_le _
        · intro member
          obtain ⟨declared, -, equal⟩ := List.mem_map.mp member
          exact same (Path.member_inj.mp equal).1
    rw [List.flatMap_cons, List.count_append, List.map_cons, ← List.singleton_append,
      List.count_append]
    omega

end Layer

/-! ## Paths in a description -/

namespace Ast

mutual

/-- The path of each body inside a coroutine is that of a name in the body around it. -/
theorem Coroutine.count_regions (outer : List Layer) (path sought : Path) (coroutine : Coroutine) :
    ((coroutine.regions outer path).map fun region => region.own.path).count sought ≤
      [path].count sought +
        ((coroutine.regions outer path).flatMap fun region => region.full.paths).count sought := by
  obtain ⟨name, parameters, statics, subroutines, statements⟩ := coroutine
  have inner := Coroutine.count_regionsAll (layer path parameters statics subroutines :: outer)
    path sought subroutines
  have own := count_layer path parameters statics subroutines sought
  rw [Coroutine.regions, List.map_cons, List.flatMap_cons, List.count_append,
    ← List.singleton_append, List.count_append, Region.full, Layer.paths, Layer.add,
    List.map_append, List.count_append]
  simp only [Layer.paths, layer] at own inner ⊢
  omega

theorem Coroutine.count_regionsAll (outer : List Layer) (path sought : Path)
    (coroutines : List Coroutine) :
    ((Coroutine.regionsAll outer path coroutines).map fun region => region.own.path).count sought ≤
      (Layer.paths ⟨path, coroutines.map Coroutine.name⟩).count sought +
        ((Coroutine.regionsAll outer path coroutines).flatMap
          fun region => region.full.paths).count sought := by
  cases coroutines with
  | nil => simp [Coroutine.regionsAll]
  | cons first rest =>
    have one := first.count_regions outer (path.member first.name.value) sought
    have more := Coroutine.count_regionsAll outer path sought rest
    have names : Layer.paths ⟨path, (first :: rest).map Coroutine.name⟩ =
        [path.member first.name.value] ++ Layer.paths ⟨path, rest.map Coroutine.name⟩ := rfl
    rw [Coroutine.regionsAll, names]
    simp only [List.map_append, List.flatMap_append, List.count_append]
    omega

end

/-- So is the path of a body of an item, or it is that of the entry point. -/
theorem Item.count_regions (globals : Layer) (sought : Path) (item : Item) :
    ((item.regions globals).map fun region => region.own.path).count sought ≤
      (Layer.paths ⟨⟨[]⟩, item.name?.toList⟩).count sought +
        (if sought = .ofName "main" then [item].countP isEntry else 0) +
        ((item.regions globals).flatMap fun region => region.full.paths).count sought := by
  cases item with
  | thread written =>
    have inner := written.count_regions [globals] (.ofName written.name.value) sought
    simp only [regions, name?, Layer.paths, Option.toList_some, List.map_cons, List.map_nil,
      ← Path.ofName_eq_member] at inner ⊢
    omega
  | function written | hook name kind body =>
    simp only [regions, name?, Layer.paths, Option.toList_some, List.map_cons, List.map_nil, layer,
      ← Path.ofName_eq_member]
    omega
  | entry location body =>
    by_cases main : sought = .ofName "main"
    · simp [regions, isEntry, layer, main]
      omega
    · simp [regions, layer, Ne.symm main]
  | _ => simp [regions]

namespace Description

/-- The names of the top level, and those of each body. -/
def layers (description : Description) : List Layer :=
  description.globals :: description.regions.map Region.full

/-- A name that is declared anywhere. -/
def Declares (description : Description) (name : String) : Prop :=
  ∃ layer ∈ description.layers, name ∈ layer.names.map Located.value

theorem count_regions (description : Description) (sought : Path) :
    (description.layers.map Layer.path).count sought ≤ [⟨[]⟩].count sought +
      (if sought = .ofName "main" then description.items.countP Item.isEntry else 0) +
      (description.layers.flatMap Layer.paths).count sought := by
  have items : ∀ items : List Item,
      ((items.flatMap (Item.regions description.globals)).map
          fun region => region.own.path).count sought ≤
        (Layer.paths ⟨⟨[]⟩, items.filterMap Item.name?⟩).count sought +
          (if sought = .ofName "main" then items.countP Item.isEntry else 0) +
          ((items.flatMap (Item.regions description.globals)).flatMap
            fun region => region.full.paths).count sought := by
    intro items
    induction items with
    | nil => simp
    | cons item rest ih =>
      have here := item.count_regions description.globals sought
      have names : (item :: rest).filterMap Item.name? =
          item.name?.toList ++ rest.filterMap Item.name? := by
        cases named : item.name? <;> simp [named]
      have entries : (item :: rest).countP Item.isEntry =
          [item].countP Item.isEntry + rest.countP Item.isEntry := by
        rw [← List.singleton_append, List.countP_append]
      rw [names, entries]
      simp only [Layer.paths, List.flatMap_cons, List.map_append, List.flatMap_append,
        List.count_append] at here ih ⊢
      split at ih <;> simp_all <;> omega
  have all := items description.items
  have paths : description.layers.map Layer.path =
      [⟨[]⟩] ++ description.regions.map fun region => region.own.path := by
    simp [layers, globals, Region.full, Function.comp_def]
  have full : description.layers.flatMap Layer.paths = description.globals.paths ++
      description.regions.flatMap fun region => region.full.paths := by
    simp [layers, List.flatMap_map]
  rw [paths, full, List.count_append, List.count_append]
  simp only [regions, globals] at all ⊢
  omega

/-- All paths of a description differ. -/
theorem paths_distinct {description : Description}
    (plain : ∀ layer ∈ description.layers, layer.Plain)
    (entries : description.items.countP Item.isEntry ≤ 1) :
    (description.layers.flatMap Layer.paths).Nodup := by
  rw [List.nodup_iff_count_le_one]
  intro path
  -- A path is as rare as the one that leads to its layer, which is shorter.
  generalize size : path.names.length = n
  induction n generalizing path with
  | zero =>
    rw [List.count_eq_zero_of_not_mem]
    · exact Nat.zero_le _
    · intro member
      obtain ⟨layer, -, inside⟩ := List.mem_flatMap.mp member
      obtain ⟨declared, -, rfl⟩ := List.mem_map.mp inside
      simp [Path.member] at size
  | succ n ih =>
    rcases path.eq_top_or_member with rfl | ⟨around, name, rfl⟩
    · cases size
    have shorter := ih around (by simpa [Path.member] using size)
    have places := Layer.Plain.count_le plain around name
    have bound := description.count_regions around
    by_cases main : around = .ofName "main"
    · -- No name is that of the entry point.
      have unused : (description.layers.flatMap Layer.paths).count around = 0 := by
        refine List.count_eq_zero_of_not_mem fun member => ?_
        rw [main, Path.ofName_eq_member] at member
        exact absurd (Layer.Plain.not_reserved plain member).1 (by decide)
      have below : [(⟨[]⟩ : Path)].count around = 0 := by
        rw [main]
        decide
      rw [if_pos main] at bound
      omega
    · rw [if_neg main] at bound
      by_cases top : around = ⟨[]⟩
      · have unused : (description.layers.flatMap Layer.paths).count around = 0 := by
          refine List.count_eq_zero_of_not_mem fun member => ?_
          obtain ⟨layer, -, inside⟩ := List.mem_flatMap.mp member
          obtain ⟨declared, -, same⟩ := List.mem_map.mp inside
          exact absurd (same.trans top) (Path.member_ne_top _ _)
        have once : [(⟨[]⟩ : Path)].count around = 1 := by
          rw [top]
          decide
        omega
      · have below : [(⟨[]⟩ : Path)].count around = 0 := by
          simp [Ne.symm top]
        omega

end Description

end Ast

/-! ## Paths in tables -/

namespace Tables

variable {tables after : Tables} {fine : String → Prop} {model : Model} {owner : Owner}

/-- All that is declared stands where its path leads, and no two paths are the same. -/
structure Ordered (tables : Tables) (fine : String → Prop) : Prop where
  leads : ∀ known ∈ tables.listing, tables.Leads known.1 known.2.2
  distinct : tables.paths.Nodup
  allowed : ∀ around name, Path.member around name ∈ tables.paths →
    isReserved name = false ∧ fine name

theorem Leads.last {path : Path} (leads : tables.Leads owner path) :
    ∃ around, tables.path? owner = some around ∧ path = around.member path.name := by
  obtain ⟨around, name, found, rfl⟩ := leads
  exact ⟨around, found, by rw [Path.name_member]⟩

theorem mem_mapIdx_of_getElem? {α β : Type} {entries : List α} {i : Nat} {entry : α}
    (found : entries[i]? = some entry) (made : Nat → α → β) :
    made i entry ∈ entries.mapIdx made :=
  List.mem_of_getElem? (i := i) (by simp [found])

/-- The local variables of a body are listed. -/
theorem local_listed {script : Script} (found : tables.script? owner = some script) :
    script.listing owner ⊆ tables.listing := by
  intro known member
  cases owner with
  | global => cases found
  | entry =>
    obtain ⟨entry, present, rfl⟩ := Option.map_eq_some_iff.mp found
    simp [listing, present, member]
  | coroutine id | function id | hook id =>
    obtain ⟨entry, there, rfl⟩ := Option.map_eq_some_iff.mp found
    have inside made := List.mem_flatten_of_mem (a := known) (mem_mapIdx_of_getElem? there made)
    simp only [listing, List.mem_append, inside, member, or_true, true_or]

theorem static_listed {id : StaticId} {known : StaticVariable}
    (found : tables.statics[id]? = some known) :
    (known.owner, .static id, known.path) ∈ tables.listing := by
  simp only [listing, List.mem_append, or_true, true_or, mem_mapIdx_of_getElem? found
    fun id known => (known.owner, Entity.static id, known.path)]

theorem coroutine_listed {id : CoroutineId} {known : Coroutine}
    (found : tables.coroutines[id]? = some known) :
    (.ofParent known.parent, .coroutine id, known.path) ∈ tables.listing := by
  simp only [listing, List.mem_append, or_true, true_or, mem_mapIdx_of_getElem? found
    fun id known => (Owner.ofParent known.parent, Entity.coroutine id, known.path)]

/-- In tidy tables every path leads into the body that declares its last name. -/
theorem Tidy.leads (tidy : tables.Tidy) : ∀ known ∈ tables.listing,
    tables.Leads known.1 known.2.2 := by
  have top : ∀ name, tables.Leads .global (.ofName name) := fun name => ⟨⟨[]⟩, name, rfl, rfl⟩
  have inner : ∀ owner {script}, tables.script? owner = some script →
      ∀ known ∈ script.listing owner, tables.Leads known.1 known.2.2 := by
    intro owner script found known member
    obtain ⟨id, bound, rfl⟩ := List.mem_mapIdx.mp member
    exact ⟨script.path, _, path?_of_script? found, rfl⟩
  intro known member
  simp only [listing, List.mem_append, or_assoc] at member
  rcases member with one | one | one | one | one | one | one | one | one
  · obtain ⟨id, bound, rfl⟩ := List.mem_mapIdx.mp one
    exact top _
  · obtain ⟨id, bound, rfl⟩ := List.mem_mapIdx.mp one
    exact (tidy.statics id _ (List.getElem?_eq_getElem bound)).leads
  · obtain ⟨id, bound, rfl⟩ := List.mem_mapIdx.mp one
    exact (tidy.coroutines id _ (List.getElem?_eq_getElem bound)).leads
  · obtain ⟨id, bound, rfl⟩ := List.mem_mapIdx.mp one
    exact top _
  · obtain ⟨id, bound, rfl⟩ := List.mem_mapIdx.mp one
    exact top _
  · obtain ⟨_, made, inside⟩ := List.mem_flatten.mp one
    obtain ⟨id, bound, rfl⟩ := List.mem_mapIdx.mp made
    exact inner (.coroutine id) (by simp [script?, bound]) known inside
  · obtain ⟨_, made, inside⟩ := List.mem_flatten.mp one
    obtain ⟨id, bound, rfl⟩ := List.mem_mapIdx.mp made
    exact inner (.function id) (by simp [script?, bound]) known inside
  · obtain ⟨_, made, inside⟩ := List.mem_flatten.mp one
    obtain ⟨id, bound, rfl⟩ := List.mem_mapIdx.mp made
    exact inner (.hook id) (by simp [script?, bound]) known inside
  · obtain ⟨entry, present, inside⟩ := List.mem_flatMap.mp one
    exact inner .entry (by simp [script?, Option.mem_toList.mp present]) known inside

/-- Hints change neither what is declared nor where. -/
theorem listing_without (advice : Advice) (tables : Tables) :
    (tables.without advice).listing = tables.listing := by
  have same : ∀ {α β γ : Type} (entries : List α) (view : α → β) (made : Nat → β → γ)
      {plain : Nat → α → γ}, (∀ i entry, made i (view entry) = plain i entry) →
      (entries.map view).mapIdx made = entries.mapIdx plain := by
    intro α β γ entries view made plain equal
    apply List.ext_getElem?
    simp [equal, Function.comp_def]
  simp only [listing, without]
  rw [same tables.statics, same tables.coroutines, same tables.functions, same tables.hooks,
    same tables.coroutines, same tables.functions, same tables.hooks] <;>
  first
    | exact fun _ _ => rfl
    | exact fun _ known => by rw [known.script_without]

theorem path?_without (advice : Advice) (tables : Tables) (owner : Owner) :
    (tables.without advice).path? owner = tables.path? owner := by
  simp only [path?, script?_without]

theorem Ordered.of_without (ordered : tables.Ordered fine)
    (same : after.without .all = tables.without .all) : after.Ordered fine := by
  have listing : after.listing = tables.listing := by
    rw [← listing_without .all, same, listing_without]
  have path : after.path? = tables.path? := by
    funext owner
    rw [← path?_without .all, same, path?_without]
  obtain ⟨leads, distinct, allowed⟩ := ordered
  simp only [Leads, paths, ← listing, ← path] at leads distinct allowed
  exact ⟨leads, distinct, allowed⟩

/-- Complete tables have the bodies and declarations of their model. -/
theorem toModel?_views (complete : tables.toModel? = some model) :
    model.inventory = tables.inventory ∧ ∀ owner, model.script? owner = tables.script? owner := by
  obtain ⟨entry, present, rfl⟩ := Option.map_eq_some_iff.mp complete
  refine ⟨rfl, fun owner => ?_⟩
  cases owner with
  | entry => simp [Model.script?, script?, present]
  | _ => rfl

theorem path?_naming (complete : tables.toModel? = some model) (owner : Owner) :
    model.naming.path? owner = tables.path? owner := by
  by_cases top : owner = .global
  · subst top
    rfl
  · rw [model.path?_naming top, (toModel?_views complete).2, path?, if_neg top]

variable (ordered : tables.Ordered fine) (complete : tables.toModel? = some model)

include ordered complete

/-- What a model declares in a body is listed with its path. -/
theorem Ordered.listed {name : String} {entity : Entity}
    (declared : model.naming.Declares owner name entity) :
    ∃ around, tables.path? owner = some around ∧
      (owner, entity, around.member name) ∈ tables.listing := by
  have scripts := (toModel?_views complete).2
  have locals := model.locals_naming owner
  obtain ⟨entry, present, rfl⟩ := Option.map_eq_some_iff.mp complete
  cases entity with
  | static id =>
    obtain ⟨path, found, rfl⟩ := declared
    simp only [Model.naming, List.getElem?_map, Option.map_eq_some_iff, Prod.mk.injEq] at found
    obtain ⟨known, there, rfl, rfl⟩ := found
    obtain ⟨around, leads, same⟩ := (ordered.leads _ (static_listed there)).last
    exact ⟨around, leads, same ▸ static_listed there⟩
  | coroutine id =>
    obtain ⟨path, found, rfl⟩ := declared
    simp only [Model.naming, List.getElem?_map, Option.map_eq_some_iff, Prod.mk.injEq] at found
    obtain ⟨known, there, rfl, rfl⟩ := found
    obtain ⟨around, leads, same⟩ := (ordered.leads _ (coroutine_listed there)).last
    exact ⟨around, leads, same ▸ coroutine_listed there⟩
  | external id | function id | hook id =>
    obtain ⟨rfl, found⟩ := declared
    simp only [Model.naming, List.getElem?_map, Option.map_eq_some_iff] at found
    obtain ⟨known, there, rfl⟩ := found
    refine ⟨⟨[]⟩, rfl, ?_⟩
    rw [← Path.ofName_eq_member]
    have member := mem_mapIdx_of_getElem? (β := Owner × Entity × Path) there
    simp only [listing, List.mem_append, true_or, or_true, member]
  | localVar id =>
    rw [Naming.Declares, locals, scripts] at declared
    cases found : tables.script? owner with
    | none => simp [found] at declared
    | some script =>
      simp only [found, Option.elim_some, List.getElem?_map, Option.map_eq_some_iff] at declared
      obtain ⟨written, there, rfl⟩ := declared
      exact ⟨script.path, path?_of_script? found, local_listed found
        (mem_mapIdx_of_getElem? there fun id name =>
          (owner, Entity.localVar id, script.path.member name.value))⟩

/-- The names of a model are in order, as those of its tables are. -/
theorem Ordered.orderly : model.naming.Orderly fine where
  rooted := by
    have leads : ∀ {owner path}, tables.Leads owner path → model.naming.Leads owner path := by
      intro owner path leads
      obtain ⟨around, found, same⟩ := leads.last
      exact ⟨around, (path?_naming complete owner).trans found, same⟩
    have scripts := (toModel?_views complete).2
    refine ⟨fun owner path member => ?_, fun owner path member => ?_, fun owner unknown => ?_, rfl⟩
    · obtain ⟨id, found⟩ := List.getElem?_of_mem member
      obtain ⟨entry, present, rfl⟩ := Option.map_eq_some_iff.mp complete
      simp only [Model.naming, List.getElem?_map, Option.map_eq_some_iff, Prod.mk.injEq] at found
      obtain ⟨known, there, rfl, rfl⟩ := found
      exact leads (ordered.leads _ (static_listed there))
    · obtain ⟨id, found⟩ := List.getElem?_of_mem member
      obtain ⟨entry, present, rfl⟩ := Option.map_eq_some_iff.mp complete
      simp only [Model.naming, List.getElem?_map, Option.map_eq_some_iff, Prod.mk.injEq] at found
      obtain ⟨known, there, rfl, rfl⟩ := found
      exact leads (ordered.leads _ (coroutine_listed there))
    · rw [model.locals_naming]
      cases found : model.script? owner with
      | none => rfl
      | some script => simp [model.path?_of_script? found] at unknown
  apart owner := by
    constructor
    · intro name one other left right
      obtain ⟨around, found, first⟩ := ordered.listed complete left
      obtain ⟨again, there, second⟩ := ordered.listed complete right
      cases found.symm.trans there
      have same := List.inj_on_of_nodup_map ordered.distinct first second rfl
      exact (Prod.mk.inj (Prod.mk.inj same).2).1
    · intro name entity declared
      obtain ⟨around, -, member⟩ := ordered.listed complete declared
      exact ordered.allowed around name (List.mem_map.mpr ⟨_, member, rfl⟩)

end Tables

/-- The tables of a description declare the names of its layers, each in one place. -/
theorem Ast.Description.Unfolds.ordered {tables : Tables}
    (unfolds : description.Unfolds tables) : tables.Ordered description.Declares := by
  have plain : ∀ layer ∈ description.layers, layer.Plain := by
    refine List.forall_mem_cons.mpr ⟨unfolds.top, List.forall_mem_map.mpr unfolds.plain⟩
  have full : description.layers.flatMap Layer.paths = description.globals.paths ++
      description.regions.flatMap fun region => region.full.paths := by
    simp [layers, List.flatMap_map]
  have within : ∀ path, tables.paths.count path ≤
      (description.layers.flatMap Layer.paths).count path := by
    intro path
    have gains := unfolds.gains path
    have nothing : Tables.empty.paths = [] := rfl
    rw [nothing, ← full] at gains
    simpa using gains
  refine ⟨(unfolds.tidy Tables.empty_tidy).leads, ?_, fun around name member => ?_⟩
  · rw [List.nodup_iff_count_le_one]
    have distinct := paths_distinct plain unfolds.entries
    exact fun path => (within path).trans (List.nodup_iff_count_le_one.mp distinct path)
  · have counted := (List.count_pos_iff.mpr member).trans_le (within _)
    exact Layer.Plain.not_reserved plain (List.count_pos_iff.mp counted)

/-- No body of a model declares a name twice, and all variables start with values that fit. -/
structure Model.Named (model : Model) (fine : String → Prop) : Prop where
  orderly : model.naming.Orderly fine
  initial : ∀ storage ∈ model.statics, ∀ value, storage.initial = some value →
    storage.type.Fits value

theorem Model.Named.imp {model : Model} {fine right : String → Prop} (named : model.Named fine)
    (all : ∀ name, fine name → right name) : model.Named right where
  orderly := ⟨named.orderly.rooted, fun owner =>
    ⟨(named.orderly.apart owner).unique, fun name entity declared =>
      ((named.orderly.apart owner).allowed name entity declared).imp_right (all name)⟩⟩
  initial := named.initial

/-- In a resolved model no body declares a name twice. -/
theorem Ast.Description.resolve_named {resolved : Resolved}
    (done : description.resolve = .ok resolved) : resolved.model.Named description.Declares := by
  obtain ⟨tables, hinted, warnings, declared, attached, complete⟩ := resolve_eq_ok done
  have unfolds := tables_unfold declared
  -- Hints come last, and change neither names nor values.
  have same : hinted.without .all = tables.without .all :=
    HintResolver.attachAll_without_all description.items attached
  refine ⟨(unfolds.ordered.of_without same).orderly complete, fun storage member value present => ?_⟩
  obtain ⟨entry, -, equal⟩ := Option.map_eq_some_iff.mp complete
  have listed : storage.unhinted ∈ tables.statics.map StaticVariable.unhinted := by
    have statics : hinted.statics.map StaticVariable.unhinted =
        tables.statics.map StaticVariable.unhinted := congrArg Tables.statics same
    rw [← equal] at member
    exact statics ▸ List.mem_map_of_mem member
  obtain ⟨old, before, equal⟩ := List.mem_map.mp listed
  obtain ⟨place, found⟩ := List.getElem?_of_mem before
  have tidy := (unfolds.tidy Tables.empty_tidy).statics place old found
  have type : old.type = storage.type := congrArg (fun known => known.type) equal
  have initial : old.initial = storage.initial := congrArg (fun known => known.initial) equal
  exact type ▸ tidy.fits value (initial.trans present)

end Coro
