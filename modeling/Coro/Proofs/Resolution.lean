import Coro.Proofs.Compilation
import Coro.Proofs.Hint.Removal
import Coro.Proofs.Resolution.Descent

/-!
Every description that is resolved gives a well-formed model.

Declarations and bodies keep the tables well formed. Hints change neither shapes nor bodies.
-/

namespace Coro

variable {description : Ast.Description}

/-- Everything that the tables refer to exists. -/
structure Tables.WellFormed (tables : Tables) : Prop where
  statics : ∀ storage ∈ tables.statics, storage.WellFormed tables.shapes
  coroutines : ∀ id coroutine, tables.coroutines[id]? = some coroutine →
    Coroutine.WellFormed tables.shapes id coroutine
  functions : ∀ function ∈ tables.functions, function.WellFormed tables.shapes
  hooks : ∀ hook ∈ tables.hooks, BodyWellFormed tables.shapes none false hook.locals hook.body
  entry : ∀ entry, tables.entry = some entry →
    BodyWellFormed tables.shapes none false entry.locals entry.body

namespace Tables

/-- What a path leads to belongs to an entity that exists. -/
theorem Leads.wellFormed {tables : Tables} {owner : Owner} {path : Path}
    (leads : tables.Leads owner path) : owner.WellFormed tables.shapes := by
  obtain ⟨around, name, found, -⟩ := leads
  cases owner with
  | global | entry => trivial
  | _ =>
    simp only [path?, reduceCtorEq, if_false, Option.map_eq_some_iff, script?] at found
    obtain ⟨_, ⟨known, listed, -⟩, -⟩ := found
    simpa [Owner.WellFormed, Tables.shapes] using (List.getElem?_eq_some_iff.mp listed).1

theorem Tidy.wellFormed {tables : Tables} (tidy : tables.Tidy) : tables.WellFormed where
  statics known member := by
    obtain ⟨place, listed⟩ := List.getElem?_of_mem member
    have fine := tidy.statics place known listed
    exact ⟨fine.leads.wellFormed, fine.length⟩
  coroutines place known listed := (tidy.coroutines place known listed).formed
  functions known member := by
    obtain ⟨place, listed⟩ := List.getElem?_of_mem member
    exact tidy.functions place known listed
  hooks known member := by
    obtain ⟨place, listed⟩ := List.getElem?_of_mem member
    exact tidy.hooks place known listed
  entry := tidy.entry

end Tables

/-- The tables of a description are well formed. -/
theorem Ast.Description.tables_wellFormed {after : Tables} {result : Unit}
    (done : description.tables.run .empty = .ok (result, after)) : after.WellFormed :=
  ((tables_unfold done).tidy Tables.empty_tidy).wellFormed

/-! ## Hints -/

/-- Wishes for registers are no part of what makes a body well formed. -/
theorem bodyWellFormed_unhinted {shapes : Shapes} {caller : Option CoroutineId} {valued : Bool}
    {locals : List Local} {body : List Stmt} :
    BodyWellFormed shapes caller valued (locals.map Local.unhinted) body ↔
      BodyWellFormed shapes caller valued locals body := by
  have lengths : (locals.map Local.unhinted).map Local.length = locals.map Local.length := by
    simp [Function.comp_def, Local.unhinted]
  constructor
  · exact fun formed => ⟨by simpa [Local.unhinted] using formed.lengths, lengths ▸ formed.statements⟩
  · exact fun formed =>
      ⟨by simpa [Local.unhinted] using formed.lengths, lengths.symm ▸ formed.statements⟩

theorem Coroutine.wellFormed_without {shapes : Shapes} {id : CoroutineId} (advice : Advice)
    (known : Coroutine) :
    (known.without advice).WellFormed shapes id ↔ known.WellFormed shapes id :=
  ⟨fun formed => { formed with body := bodyWellFormed_unhinted.mp formed.body },
    fun formed => { formed with body := bodyWellFormed_unhinted.mpr formed.body }⟩

theorem Coroutine.script_without (advice : Advice) (known : Coroutine) :
    (known.without advice).script = known.script := by
  simp [script, without, Local.unhinted, Local.written]

namespace Tables

variable (advice : Advice) (tables : Tables)

theorem shapes_without : (tables.without advice).shapes = tables.shapes := by
  simp only [shapes, without, List.map_map]
  rfl

theorem inventory_without : (tables.without advice).inventory = tables.inventory := by
  simp only [inventory, without, List.map_map]
  rfl

theorem script?_without (owner : Owner) :
    (tables.without advice).script? owner = tables.script? owner := by
  cases owner with
  | global | entry => rfl
  | coroutine id => simp [script?, without, Function.comp_def, Coroutine.script_without]
  | function id | hook id =>
    simp only [script?, without, List.getElem?_map, Option.map_map]
    rfl

theorem wellFormed_without : (tables.without advice).WellFormed ↔ tables.WellFormed := by
  have same := tables.shapes_without advice
  constructor
  · intro formed
    refine ⟨fun known member => ?_, fun id known found => ?_, fun known member => ?_,
      fun known member => ?_, same ▸ formed.entry⟩
    · have fine := formed.statics _ (List.mem_map_of_mem member)
      exact ⟨same ▸ fine.owner, fine.length⟩
    · have fine := formed.coroutines id (known.without advice) (by simp [without, found])
      exact (known.wellFormed_without advice).mp (same ▸ fine)
    · have fine := formed.functions _ (List.mem_map_of_mem member)
      exact ⟨fine.parameters, same ▸ fine.body⟩
    · have fine := formed.hooks _ (List.mem_map_of_mem member)
      exact same ▸ fine
  · intro formed
    refine ⟨fun known member => ?_, fun id known found => ?_, fun known member => ?_,
      fun known member => ?_, same.symm ▸ formed.entry⟩
    · obtain ⟨old, listed, rfl⟩ := List.mem_map.mp member
      have fine := formed.statics old listed
      exact ⟨same.symm ▸ fine.owner, fine.length⟩
    · obtain ⟨old, listed, rfl⟩ := Option.map_eq_some_iff.mp (List.getElem?_map .. ▸ found)
      exact (old.wellFormed_without advice).mpr (same.symm ▸ formed.coroutines id old listed)
    · obtain ⟨old, listed, rfl⟩ := List.mem_map.mp member
      have fine := formed.functions old listed
      exact ⟨fine.parameters, same.symm ▸ fine.body⟩
    · obtain ⟨old, listed, rfl⟩ := List.mem_map.mp member
      exact same.symm ▸ formed.hooks old listed

end Tables

namespace HintResolver

variable (items : List Ast.Item) {before after : Tables × List (Located Warning)} {result : Unit}

variable (done : (attachAll items).run before = .ok (result, after))

include done

/-- Hints change nothing but the advice. -/
theorem attachAll_without_all : after.1.without .all = before.1.without .all :=
  congrArg Prod.fst (attachAll_kept items done)

theorem attachAll_wellFormed (formed : before.1.WellFormed) : after.1.WellFormed := by
  rw [← Tables.wellFormed_without .all] at formed ⊢
  rwa [attachAll_without_all items done]

end HintResolver

theorem Tables.toModel?_wellFormed {tables : Tables} {model : Model} (formed : tables.WellFormed)
    (complete : tables.toModel? = some model) : model.WellFormed := by
  obtain ⟨entry, present, rfl⟩ := Option.map_eq_some_iff.mp complete
  exact ⟨formed.statics, formed.coroutines, formed.functions, formed.hooks,
    formed.entry entry present⟩

/-- A resolved model comes from complete tables that are well formed. -/
theorem Ast.Description.resolve_tables {resolved : Resolved}
    (done : description.resolve = .ok resolved) :
    ∃ tables : Tables, tables.WellFormed ∧ tables.toModel? = some resolved.model := by
  obtain ⟨tables, hinted, warnings, declared, attached, complete⟩ := resolve_eq_ok done
  exact ⟨hinted, HintResolver.attachAll_wellFormed _ attached (tables_wellFormed declared), complete⟩

/-- Whatever description is resolved, its model refers only to what exists, in the right way. -/
theorem Ast.Description.resolve_wellFormed (description : Ast.Description) (resolved : Resolved)
    (done : description.resolve = .ok resolved) : resolved.model.WellFormed := by
  obtain ⟨tables, formed, complete⟩ := resolve_tables done
  exact Tables.toModel?_wellFormed formed complete

/-- The description of a thread that calls a subroutine is resolved into a well-formed model. -/
theorem Source.waiting_wellFormed : ∃ description resolved, waiting.parse = .ok description ∧
    description.resolve = .ok resolved ∧ resolved.model.WellFormed := by
  obtain ⟨program, warnings, linked⟩ := waiting_links
  obtain ⟨description, resolved, parsed, meant, -⟩ := link_eq_ok linked
  exact ⟨description, resolved, parsed, meant, description.resolve_wellFormed resolved meant⟩

end Coro
