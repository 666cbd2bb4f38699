import Coro.Proofs.Resolution.Declaration

/-!
Descriptions and models without hints.

A hint is resolved when every name is known, and it changes nothing that a later hint looks up. What
a description declares is therefore the same with and without it.
-/

namespace Coro

variable {advice : Advice} {item : Ast.Item} {path : Located Path}
  {after before : Tables × List (Located Warning)} {result : Unit}

/-- The advice that is left out. -/
inductive Advice where
  /-- The wishes for registers. -/
  | registers
  /-- All wishes. -/
  | all
deriving Repr, DecidableEq

/-- The wishes on compilation that stay. -/
def Tuning.without (tuning : Tuning) : Advice → Tuning
  | .registers => tuning
  | .all => .none

/-! ## Descriptions -/

/-- An item that gives some of the advice. -/
def Ast.Item.gives (advice : Advice) : Ast.Item → Bool
  | .useReg .. => true
  | .tune .. => advice = .all
  | _ => false

/-- The description without the items that give the advice. -/
def Ast.Description.without (advice : Advice) (description : Ast.Description) : Ast.Description :=
  { description with items := description.items.filter fun item => !item.gives advice }

/-! ## Models -/

/-- The variable without its wish for a register. -/
def StaticVariable.unhinted (storage : StaticVariable) : StaticVariable :=
  { storage with hint := none }

/-- The variable without its wish for a register. -/
def Local.unhinted (known : Local) : Local :=
  { known with hint := none }

/-- The coroutine without the advice on its state, its variables and its code. -/
def Coroutine.without (advice : Advice) (coroutine : Coroutine) : Coroutine :=
  { coroutine with
    locals := coroutine.locals.map Local.unhinted
    stateHint := none
    tuning := coroutine.tuning.without advice }

/-- The function without the advice on its code. -/
def Function.without (advice : Advice) (function : Function) : Function :=
  { function with tuning := function.tuning.without advice }

/-- The hook without the advice on its code. -/
def Hook.without (advice : Advice) (hook : Hook) : Hook :=
  { hook with tuning := hook.tuning.without advice }

/-- The tables without the advice. -/
def Tables.without (advice : Advice) (tables : Tables) : Tables :=
  { tables with
    statics := tables.statics.map StaticVariable.unhinted
    coroutines := tables.coroutines.map (Coroutine.without advice)
    functions := tables.functions.map (Function.without advice)
    hooks := tables.hooks.map (Hook.without advice) }

/-- The model without the advice, which is the same in everything else. -/
def Model.without (advice : Advice) (model : Model) : Model :=
  { model with
    statics := model.statics.map StaticVariable.unhinted
    coroutines := model.coroutines.map (Coroutine.without advice)
    functions := model.functions.map (Function.without advice)
    hooks := model.hooks.map (Hook.without advice) }

theorem Tables.toModel?_without (advice : Advice) (tables : Tables) :
    (tables.without advice).toModel? = tables.toModel?.map (Model.without advice) := by
  simp only [Tables.toModel?, Option.map_map]
  rfl

section Lookup

variable (advice : Advice) (model : Model)

theorem Model.threads_without : (model.without advice).threads = model.threads := by
  simp only [threads, without, List.zipIdx_map, List.filter_map, List.map_map]
  rfl

theorem Model.hooksOn_without : (model.without advice).hooksOn = model.hooksOn := by
  funext kind
  simp only [hooksOn, without, List.zipIdx_map, List.filter_map, List.map_map]
  rfl

theorem Model.findCoroutine?_without (path : String) :
    (model.without advice).findCoroutine? path = model.findCoroutine? path := by
  simp only [findCoroutine?, without, List.findIdx?_map]
  rfl

theorem Model.findStatic?_without (path : String) :
    (model.without advice).findStatic? path = model.findStatic? path := by
  simp only [findStatic?, without, List.findIdx?_map]
  rfl

end Lookup

/-! ## Entries of tables -/

/-- Changing an entry and viewing all of them go in either order if the change respects the view. -/
theorem map_modify_comm {α β : Type} {view : α → β} {change : α → α} {change' : β → β}
    (entries : List α) (i : Nat) (respects : ∀ entry, view (change entry) = change' (view entry)) :
    (entries.modify i change).map view = (entries.map view).modify i change' := by
  -- At each place there is no entry, the one that changes, or another.
  apply List.ext_getElem?
  intro place
  simp only [List.getElem?_map, List.getElem?_modify]
  cases entries[place]? with
  | none => rfl
  | some entry => by_cases chosen : i = place <;> simp [chosen, respects]

theorem view_getD_map {α β : Type} {view : α → β} {change : α → α} {fallback : α}
    (entries : List α) (i : Nat) (same : ∀ entry, view (change entry) = view entry) :
    view ((entries.map change).getD i fallback) = view (entries.getD i fallback) := by
  -- The entry that stands in for none is the same on both sides.
  simp only [List.getD_eq_getElem?_getD, List.getElem?_map]
  cases entries[i]? with
  | none => rfl
  | some entry => exact same entry

/-! ## Resolution -/

/-- Hints declare nothing. -/
theorem Resolver.declareAll_without (advice : Advice) (items : List Ast.Item) :
    declareAll (items.filter fun item => !item.gives advice) = declareAll items := by
  -- By induction on the items, where those that are left out do nothing.
  induction items with
  | nil => rfl
  | cons item rest ih =>
    cases given : item.gives advice with
    | false => simp [given, declareAll, ih]
    | true =>
      -- An item that gives advice leaves no body behind and changes no table.
      have silent : declare item = pure none := by
        cases item with
        | useReg path group => rfl
        | tune path flags => rfl
        | _ => cases given
      simp [given, declareAll, silent, ih]

namespace Tables

/-- Names lead to the same entities without advice. -/
theorem follow_without (advice : Advice) (tables : Tables) (owner : Owner) (entity : Entity)
    (names : List String) :
    (tables.without advice).follow owner entity names = tables.follow owner entity names := by
  induction names generalizing owner entity with
  | nil => rfl
  | cons name rest ih =>
    have member (inner : Owner) : (tables.without advice).member? inner name =
        tables.member? inner name := rfl
    simp only [follow, member, ih]

theorem hinted_without (advice : Advice) (tables : Tables) (path : Located Path) :
    (tables.without advice).hinted path = tables.hinted path := by
  have follows := follow_without advice tables .global
  have names : (tables.without advice).globals = tables.globals := rfl
  simp only [hinted, follows, names]

end Tables

namespace HintResolver

/-- The warnings that stay; no wish for a register leads to one here. -/
def keptWarnings : Advice → List (Located Warning) → List (Located Warning)
  | .registers, warnings => warnings
  | .all, _ => []

/-- What stays of tables and warnings. -/
def kept (advice : Advice) (state : Tables × List (Located Warning)) :
    Tables × List (Located Warning) :=
  (state.1.without advice, keptWarnings advice state.2)

/-- A wish for a register is all that its hint adds. -/
theorem useReg_kept {group : Option (Located String)}
    (done : (useReg path group).run before = .ok (result, after)) :
    kept advice after = kept advice before := by
  -- The hint is resolved first; after that, one entry of a table changes.
  simp only [useReg, run_bind_eq_ok, run_get_eq_ok, run_lift_eq_ok] at done
  obtain ⟨_, _, ⟨rfl, rfl⟩, ⟨owner, entity⟩, _, ⟨-, rfl⟩, group, _, ⟨-, rfl⟩, next⟩ := done
  split at next
  -- The wish is kept with the variable, or with the coroutine whose state it is about.
  case h_1 | h_3 =>
    cases run_modify_eq_ok.mp next
    simp only [kept, Tables.without]
    rw [map_modify_eq]
    exact fun _ => rfl
  case h_2 =>
    cases run_modify_eq_ok.mp next
    simp only [kept, Tables.without]
    rw [map_modify_eq]
    intro known
    -- Among the variables of the coroutine, too, only one changes.
    simp only [Coroutine.without]
    rw [map_modify_eq known.locals _ fun _ => ?_]
    rfl
  case h_4 => exact absurd next run_throw_ne_ok

/-- A wish on compilation and its warnings are all that its hint adds. -/
theorem tune_kept {flags : List (Located String)}
    (done : (tune path flags).run before = .ok (result, after)) :
    kept .all after = kept .all before := by
  -- The hint is resolved first; after that, one entry of a table changes.
  simp only [tune, run_bind_eq_ok, run_get_eq_ok, run_lift_eq_ok] at done
  obtain ⟨_, _, ⟨rfl, rfl⟩, ⟨owner, entity⟩, _, ⟨-, rfl⟩, requested, _, ⟨-, rfl⟩, next⟩ := done
  -- Each kind of entity has its own table, and the wishes are forgotten in all of them.
  split at next
  case h_1 | h_2 | h_3 =>
    cases run_modify_eq_ok.mp next
    simp only [kept, keptWarnings, Tables.without]
    rw [map_modify_eq]
    exact fun _ => rfl
  case h_4 => exact absurd next run_throw_ne_ok

/-- Wishes on compilation are settled alike with and without wishes for registers. -/
theorem tune_commutes (path : Located Path) (flags : List (Located String))
    (before : Tables × List (Located Warning)) :
    (tune path flags).run (kept .registers before) =
      ((tune path flags).run before).map (Prod.map id (kept .registers)) := by
  obtain ⟨tables, warnings⟩ := before
  -- The hint finds the same entity, with the same wishes so far.
  have target := Tables.hinted_without .registers tables path
  have function (id : Nat) : ((tables.without .registers).functions.getD id default).tuning =
      (tables.functions.getD id default).tuning := view_getD_map tables.functions id fun _ => rfl
  have returns (id : Nat) : ((tables.without .registers).functions.getD id default).returns =
      (tables.functions.getD id default).returns := view_getD_map tables.functions id fun _ => rfl
  have coroutine (id : Nat) : ((tables.without .registers).coroutines.getD id default).tuning =
      (tables.coroutines.getD id default).tuning := view_getD_map tables.coroutines id fun _ => rfl
  have hook (id : Nat) : ((tables.without .registers).hooks.getD id default).tuning =
      (tables.hooks.getD id default).tuning := view_getD_map tables.hooks id fun _ => rfl
  simp only [tune, StateT.run_bind, StateT.run_get, kept, pure_bind, target, function, returns,
    coroutine, hook]
  cases tables.hinted path with
  | error fault => rfl
  | ok found =>
    obtain ⟨owner, entity⟩ := found
    cases tuningFlags flags with
    | error fault => rfl
    | ok requested =>
      -- The new wishes are set before or after the wishes for registers are left out.
      cases entity
      case function id | coroutine id | hook id =>
        refine congrArg (fun state => Except.ok ((), state)) (Eq.symm ?_)
        simp only [kept, keptWarnings, Tables.without]
        rw [map_modify_comm]
        exact fun _ => rfl
      all_goals rfl

/-- Advice is all that hints add. -/
theorem attachAll_kept (items : List Ast.Item)
    (done : (attachAll items).run before = .ok (result, after)) :
    kept .all after = kept .all before := by
  induction items generalizing before with
  | nil =>
    obtain ⟨-, rfl⟩ := run_pure_eq_ok.mp done
    rfl
  | cons item rest ih =>
    simp only [attachAll, run_bind_eq_ok] at done
    obtain ⟨_, between, one, others⟩ := done
    refine (ih others).trans ?_
    cases item with
    | useReg path group => exact useReg_kept one
    | tune path flags => exact tune_kept one
    | _ =>
      obtain ⟨-, rfl⟩ := run_pure_eq_ok.mp one
      rfl

/-- Advice that is left out adds nothing that stays. -/
theorem attach_kept (given : item.gives advice = true)
    (done : (attach item).run before = .ok (result, after)) :
    kept advice after = kept advice before := by
  -- Which items are left out depends on the advice.
  cases item with
  | useReg path group => exact useReg_kept done
  | tune path flags =>
    cases of_decide_eq_true given
    exact tune_kept done
  | _ => cases given

/-- Advice that stays is attached alike, whether other advice has been left out or not. -/
theorem attach_commutes (other : item.gives advice = false)
    (before : Tables × List (Located Warning)) :
    (attach item).run (kept advice before) =
      ((attach item).run before).map (Prod.map id (kept advice)) := by
  -- Only a wish on compilation can be left among the hints; no other item is one.
  cases item with
  | useReg path group => cases other
  | tune path flags =>
    cases advice with
    | registers => exact tune_commutes path flags before
    | all => cases other
  | _ => rfl

/-- All hints together keep the same, whether some advice among them is left out or not. -/
theorem attachAll_without (advice : Advice) (items : List Ast.Item)
    {other : Tables × List (Located Warning)} (alike : kept advice before = kept advice other)
    (done : (attachAll items).run before = .ok (result, after)) :
    ∃ last, (attachAll (items.filter fun item => !item.gives advice)).run other =
      .ok (result, last) ∧ kept advice after = kept advice last := by
  -- By induction on the items; both sides keep the same all along.
  induction items generalizing before other with
  | nil =>
    obtain ⟨-, rfl⟩ := run_pure_eq_ok.mp done
    exact ⟨other, rfl, alike⟩
  | cons item rest ih =>
    simp only [attachAll, run_bind_eq_ok] at done
    obtain ⟨_, between, one, others⟩ := done
    cases given : item.gives advice with
    | true =>
      simp only [List.filter_cons, given, Bool.not_true, Bool.false_eq_true, if_false]
      exact ih ((attach_kept given one).trans alike) others
    | false =>
      -- The same hint is attached on the other side, to tables that keep the same.
      have here := attach_commutes given before
      have there := attach_commutes given other
      rw [one] at here
      rw [← alike, here] at there
      cases found : (attach item).run other with
      | error fault => rw [found] at there; cases there
      | ok reached =>
        rw [found] at there
        obtain ⟨last, attached, kept⟩ := ih (congrArg Prod.snd (Except.ok.inj there)) others
        refine ⟨last, ?_, kept⟩
        simp only [List.filter_cons, given, Bool.not_false, if_true, attachAll]
        exact run_bind_eq_ok.mpr ⟨_, _, found, attached⟩

end HintResolver

/-- Whatever is resolved is resolved without advice too, and what stays of the model is the same. -/
theorem Ast.Description.resolve_without (advice : Advice) {description : Ast.Description}
    {resolved : Resolved} (done : description.resolve = .ok resolved) :
    ∃ plain, (description.without advice).resolve = .ok plain ∧
      plain.model.without advice = resolved.model.without advice := by
  -- Resolution declares everything, attaches the hints and then asks for an entry.
  simp only [resolve] at done
  obtain ⟨⟨_, tables⟩, declared, next⟩ := bind_eq_ok.mp done
  obtain ⟨⟨_, hinted, warnings⟩, attached, complete⟩ := bind_eq_ok.mp next
  -- The hints that stay start from the same tables.
  obtain ⟨⟨bare, fewer⟩, attached', alike⟩ :=
    HintResolver.attachAll_without advice description.items rfl attached
  -- There is an entry on both sides or on none.
  have models := congrArg (fun state => Tables.toModel? state.1) alike
  simp only [HintResolver.kept, Tables.toModel?_without] at models
  split at complete
  case h_2 => exact absurd complete throw_ne_ok
  case h_1 model present =>
    cases pure_eq_ok.mp complete
    rw [present] at models
    obtain ⟨plain, present', same⟩ := Option.map_eq_some_iff.mp models.symm
    refine ⟨⟨plain, fewer⟩, ?_, same⟩
    simp only [resolve, Description.tables, Description.without, Resolver.declareAll_without]
    refine bind_eq_ok.mpr ⟨_, declared, bind_eq_ok.mpr ⟨_, attached', ?_⟩⟩
    simp only [present']
    rfl

end Coro
