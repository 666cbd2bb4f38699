import Coro.Proofs.Parser.Words
import Coro.Proofs.Registers.Binding
import Coro.Proofs.Resolution.Lexical

/-!
No two wishes for registers stand at the same place of a text.

A wish is told by the first token of the path in its hint. No token is read twice, a hint makes a
wish for one variable or state, and later hints for the same one take its place.
-/

namespace Coro

variable {source : Source} {description : Ast.Description}

/-! ## Hints in a text -/

/-- Where a hint names the storage that it wishes a register for. -/
def Ast.Item.wish? : Ast.Item → Option Position
  | .useReg path _ => some path.location.start
  | _ => none

/-- Where the tokens start that are still to be read. -/
def Cursor.starts (cursor : Cursor) : List Position :=
  cursor.tokens.map fun token => token.location.start

namespace Parser

variable {cursor after : Cursor} {budget : Nat}

/-- An identifier is the next token. -/
theorem identifier_eq_ok {name : Located String}
    (ran : identifier.run cursor = .ok (name, after)) :
    ∃ token, cursor.tokens = token :: after.tokens ∧ name.location = token.location := by
  obtain ⟨tokens, last⟩ := cursor
  cases tokens with
  | nil => cases ran
  | cons token rest =>
    simp only [identifier, next, StateT.run_bind, StateT.run_get, StateT.run_set, StateT.run_pure,
      pure_bind] at ran
    split at ran
    · cases ran
      exact ⟨token, rfl, rfl⟩
    · cases ran

/-- A path starts where its first token does. -/
theorem path_start {value : Located Path} (ran : (path budget).run cursor = .ok (value, after)) :
    ∃ token rest, cursor.tokens = token :: rest ∧
      value.location.start = token.location.start := by
  simp only [path, StateT.run_bind, bind_eq_ok, Prod.exists] at ran
  obtain ⟨first, _, named, _, _, _, _, _, spanned, same⟩ := ran
  obtain ⟨token, ahead, placed⟩ := identifier_eq_ok named
  cases spanned
  cases same
  exact ⟨token, _, ahead, by rw [← placed]; rfl⟩

/-- A wish starts where the token behind its keyword does. -/
theorem useReg_start {token : Located Token} {rest : List (Located Token)} {path : Located Path}
    {group : Option (Located String)} {last : Location} (word : token.value = .keyword .useReg)
    (ran : (item budget).run ⟨token :: rest, last⟩ = .ok (.useReg path group, after)) :
    ∃ first others, rest = first :: others ∧ path.location.start = first.location.start := by
  simp only [item, next, StateT.run_bind, StateT.run_get, StateT.run_set, StateT.run_pure,
    pure_bind, word, bind_eq_ok, Prod.exists] at ran
  obtain ⟨named, _, found, _, _, -, _, _, -, same⟩ := ran
  cases same
  exact path_start found

/-- An item reads its tokens, the place of its wish among them, and leaves the rest. -/
theorem item_starts {written : Ast.Item} (short : cursor.tokens.length ≤ budget)
    (ran : (item budget).run cursor = .ok (written, after)) :
    (written.wish?.toList ++ after.starts).Sublist cursor.starts := by
  obtain ⟨left, tokens, ahead, spelled⟩ :=
    (item_takes budget cursor.ahead (by simpa [Cursor.ahead] using short)).of_run ran
  cases written with
  | useReg path group =>
    cases spelled
    obtain ⟨tokens, last⟩ := cursor
    -- There are the keyword and one more token at least.
    cases tokens with
    | nil => simp [Cursor.ahead] at ahead
    | cons token rest =>
      obtain ⟨word, behind⟩ := List.cons.inj ahead
      obtain ⟨first, others, rfl, placed⟩ := useReg_start word ran
      have fewer : after.tokens.length ≤ others.length := by
        have same := congrArg List.length behind
        simp [Cursor.ahead] at same
        omega
      have rest : after.tokens <:+ others :=
        List.suffix_of_suffix_length_le left (List.suffix_append [token, first] others) fewer
      simp only [Ast.Item.wish?, placed]
      exact ((rest.sublist.map _).cons_cons _).cons _
  | _ => exact left.sublist.map _

/-- The wishes of a list of items stand at the places of tokens, one behind the other. -/
theorem items_starts (budget : Nat) {written : List Ast.Item}
    (short : cursor.tokens.length ≤ budget)
    (ran : (items budget).run cursor = .ok (written, after)) :
    (written.filterMap Ast.Item.wish?).Sublist cursor.starts := by
  induction budget generalizing cursor written with
  | zero =>
    cases ran
    exact List.nil_sublist _
  | succ budget ih =>
    simp only [items, StateT.run_bind, bind_eq_ok, Prod.exists] at ran
    obtain ⟨token, _, peeked, read⟩ := ran
    cases peeked
    split at read
    · cases read
      exact List.nil_sublist _
    · simp only [StateT.run_bind, bind_eq_ok, Prod.exists] at read
      obtain ⟨first, between, one, rest, _, others, same⟩ := read
      cases same
      -- An item takes at least one token, so that the budget lasts for the others.
      obtain ⟨-, tokens, ahead, spelled⟩ :=
        (item_takes _ cursor.ahead (by simpa [Cursor.ahead] using short)).of_run one
      have some := List.length_pos_iff.mpr spelled.ne_nil
      have length := congrArg List.length ahead
      have later := ih (by simp [Cursor.ahead] at length; omega) others
      have both : (first :: rest).filterMap Ast.Item.wish? =
          first.wish?.toList ++ rest.filterMap Ast.Item.wish? := by
        cases wished : first.wish? <;> simp [wished]
      rw [both]
      exact (later.append_left _).trans (item_starts short one)

end Parser

/-- The wishes of a description stand at different places. -/
theorem Source.parse_wishes (parsed : source.parse = .ok description) :
    (description.items.filterMap Ast.Item.wish?).Nodup := by
  simp only [Source.parse, bind_eq_ok, mapError_eq_ok] at parsed
  obtain ⟨tokens, lexed, read⟩ := parsed
  obtain ⟨⟨items, cursor⟩, ran, same⟩ := bind_eq_ok.mp read
  cases same
  have starts : (tokens.map fun token => token.location.start).Nodup := by
    refine List.pairwise_map.mpr ((tokens_ordered lexed).imp fun before same => ?_)
    exact before.asymm (same ▸ before)
  have wished : (items.filterMap Ast.Item.wish?).Sublist (Cursor.starts ⟨tokens, .point .first⟩) :=
    Parser.items_starts tokens.length le_rfl ran
  exact wished.nodup starts

/-! ## Hints in tables -/

/-- One hint comes into a list, perhaps in the place of others. -/
def Enters {α : Type} (hint : α) (before after : List α) : Prop :=
  after = before ∨ ∃ front old back, before = front ++ old ++ back ∧ after = front ++ [hint] ++ back

namespace Enters

variable {α β : Type} {hint : α} {before after : List α}

theorem append_left {front front' : List α} (same : front' = front)
    (enters : Enters hint before after) : Enters hint (front ++ before) (front' ++ after) := by
  subst same
  rcases enters with rfl | ⟨one, old, two, rfl, rfl⟩
  · exact .inl rfl
  · exact .inr ⟨front' ++ one, old, two, by simp, by simp⟩

theorem append_right {back back' : List α} (same : back' = back)
    (enters : Enters hint before after) : Enters hint (before ++ back) (after ++ back') := by
  subst same
  rcases enters with rfl | ⟨one, old, two, rfl, rfl⟩
  · exact .inl rfl
  · exact .inr ⟨one, old, two ++ back', by simp, by simp⟩

/-- A hint that comes into one entry comes into all of them together. -/
theorem flatMap_modify {view : β → List α} {change : β → β} (entries : List β) (i : Nat)
    (each : ∀ entry, Enters hint (view entry) (view (change entry))) :
    Enters hint (entries.flatMap view) ((entries.modify i change).flatMap view) := by
  induction entries generalizing i with
  | nil => exact .inl (by simp)
  | cons entry rest ih =>
    cases i with
    | zero => exact (each entry).append_right rfl
    | succ i => exact (ih i).append_left rfl

/-- What has places of its own still has them with one more. -/
theorem nodup_append {γ : Type} (place : α → γ) {others : List γ}
    (enters : Enters hint before after)
    (apart : (before.map place ++ place hint :: others).Nodup) :
    (after.map place ++ others).Nodup := by
  rcases enters with rfl | ⟨front, old, back, rfl, rfl⟩
  · exact apart.sublist (List.Sublist.append_left (List.sublist_cons_self _ _) _)
  · -- The new one moves to its place, and what was there is left out.
    have order : ((front ++ [hint] ++ back).map place ++ others).Perm
        ((front ++ back).map place ++ place hint :: others) := by
      simp only [List.map_append, List.map_cons, List.append_assoc, List.singleton_append]
      exact List.Perm.append_left _ List.perm_middle.symm
    refine order.nodup_iff.mpr (apart.sublist (List.Sublist.append_right (.map place ?_) _))
    exact (List.sublist_append_left front old).append_right back

end Enters

/-- The wishes for static variables, for local variables of coroutines, and for their states. -/
def registerHints (statics : List StaticVariable) (coroutines : List Coroutine) :
    List RegisterHint :=
  statics.flatMap (fun known => known.hint.toList) ++
    coroutines.flatMap (fun known => known.locals.flatMap fun var => var.hint.toList) ++
    coroutines.flatMap (fun known => known.stateHint.toList)

/-- The wishes that are attached so far. -/
def Tables.hints (tables : Tables) : List RegisterHint :=
  registerHints tables.statics tables.coroutines

theorem flatMap_modify_eq {α β : Type} {view : α → List β} {change : α → α} (entries : List α)
    (i : Nat) (same : ∀ entry, view (change entry) = view entry) :
    (entries.modify i change).flatMap view = entries.flatMap view := by
  rw [List.flatMap_def, List.flatMap_def, map_modify_eq entries i same]

namespace HintResolver

variable {before after : Tables × List (Located Warning)} {result : Unit}

/-- A wish comes into the tables where its storage is. -/
theorem useReg_enters {path : Located Path} {group : Option (Located String)}
    (done : (useReg path group).run before = .ok (result, after)) :
    ∃ hint : RegisterHint, hint.location = path.location ∧
      Enters hint before.1.hints after.1.hints := by
  simp only [useReg, run_bind_eq_ok, run_get_eq_ok, run_lift_eq_ok] at done
  obtain ⟨_, _, ⟨rfl, rfl⟩, ⟨owner, entity⟩, _, ⟨-, rfl⟩, chosen, _, ⟨-, rfl⟩, next⟩ := done
  refine ⟨⟨chosen, path.location⟩, rfl, ?_⟩
  have single (old : Option RegisterHint) : Enters ⟨chosen, path.location⟩ old.toList
      (some ⟨chosen, path.location⟩).toList := .inr ⟨[], old.toList, [], by simp, rfl⟩
  split at next
  case h_1 =>
    cases run_modify_eq_ok.mp next
    exact ((Enters.flatMap_modify _ _ fun known => single known.hint).append_right rfl).append_right
      rfl
  case h_2 =>
    cases run_modify_eq_ok.mp next
    refine ((Enters.flatMap_modify _ _ fun known => ?_).append_left rfl).append_right
      (flatMap_modify_eq _ _ fun _ => rfl)
    exact .flatMap_modify _ _ fun var => single var.hint
  case h_3 =>
    cases run_modify_eq_ok.mp next
    refine (Enters.flatMap_modify _ _ fun known => single known.stateHint).append_left ?_
    exact congrArg (_ ++ ·) (flatMap_modify_eq _ _ fun _ => rfl)
  case h_4 => exact absurd next run_throw_ne_ok

/-- Wishes on compilation leave those for registers as they are. -/
theorem tune_hints {path : Located Path} {flags : List (Located String)}
    (done : (tune path flags).run before = .ok (result, after)) :
    after.1.hints = before.1.hints := by
  simp only [tune, run_bind_eq_ok, run_get_eq_ok, run_lift_eq_ok] at done
  obtain ⟨_, _, ⟨rfl, rfl⟩, ⟨owner, entity⟩, _, ⟨-, rfl⟩, requested, _, ⟨-, rfl⟩, next⟩ := done
  split at next
  case h_1 | h_3 =>
    cases run_modify_eq_ok.mp next
    rfl
  case h_2 =>
    cases run_modify_eq_ok.mp next
    exact congrArg₂ (· ++ ·) (congrArg (_ ++ ·) (flatMap_modify_eq _ _ fun _ => rfl))
      (flatMap_modify_eq _ _ fun _ => rfl)
  case h_4 => exact absurd next run_throw_ne_ok

/-- Wishes that stand at different places are attached, each at a place of its own. -/
theorem attachAll_hints (items : List Ast.Item)
    (apart : (before.1.hints.map (·.location.start) ++ items.filterMap Ast.Item.wish?).Nodup)
    (done : (attachAll items).run before = .ok (result, after)) :
    (after.1.hints.map (·.location.start)).Nodup := by
  -- By induction on the items: each moves its place from those to come to those that are there.
  induction items generalizing before with
  | nil =>
    obtain ⟨-, rfl⟩ := run_pure_eq_ok.mp done
    simpa using apart
  | cons item rest ih =>
    simp only [attachAll, run_bind_eq_ok] at done
    obtain ⟨_, between, one, others⟩ := done
    refine ih ?_ others
    cases item with
    | useReg path group =>
      obtain ⟨hint, here, enters⟩ := useReg_enters one
      refine enters.nodup_append (·.location.start) ?_
      rw [here]
      exact apart
    | tune path flags =>
      rw [tune_hints one]
      exact apart
    | _ =>
      obtain ⟨-, rfl⟩ := run_pure_eq_ok.mp one
      exact apart

end HintResolver

/-! ## Hints in programs -/

/-- The wishes of a model stand at different places. -/
theorem Source.analyze_hints {resolved : Resolved} (parsed : source.parse = .ok description)
    (meant : description.resolve = .ok resolved) :
    ((registerHints resolved.model.statics resolved.model.coroutines).map
      (·.location.start)).Nodup := by
  obtain ⟨tables, hinted, warnings, declared, attached, complete⟩ :=
    Ast.Description.resolve_eq_ok meant
  -- All wishes come from hints, since nothing is declared with one.
  have tidy := (Ast.Description.tables_unfold declared).tidy Tables.empty_tidy
  have statics : ∀ known ∈ tables.statics, known.hint = none := by
    intro known member
    obtain ⟨place, found⟩ := List.getElem?_of_mem member
    exact (tidy.statics place known found).bare
  have coroutines : ∀ known ∈ tables.coroutines, known.Unhinted := by
    intro known member
    obtain ⟨place, found⟩ := List.getElem?_of_mem member
    exact (tidy.coroutines place known found).bare
  have locals : ∀ known ∈ tables.coroutines,
      known.locals.flatMap (fun var => var.hint.toList) = [] := by
    intro known member
    exact List.flatMap_eq_nil_iff.mpr fun var listed => by
      simp [(coroutines known member).2 var listed]
  have none : tables.hints = [] := by
    simp +contextual [Tables.hints, registerHints, statics, locals, (coroutines _ _).1]
  have apart := HintResolver.attachAll_hints description.items
    (by simpa [none] using parse_wishes parsed) attached
  obtain ⟨entry, -, same⟩ := Option.map_eq_some_iff.mp complete
  rw [← same]
  exact apart

/-- Requests for numbered entries tell the wishes of these. -/
theorem hints_filterMap {α : Type} (entries : List α) {wish : α → Option RegisterHint}
    {request : α × Nat → Option BindingRequest}
    (told : ∀ numbered, (request numbered).map BindingRequest.hint = wish numbered.1) :
    (entries.zipIdx.filterMap request).map BindingRequest.hint =
      entries.flatMap fun entry => (wish entry).toList := by
  have each : (fun numbered => (request numbered).map BindingRequest.hint) = wish ∘ Prod.fst :=
    funext told
  rw [List.map_filterMap, each, ← List.filterMap_map, List.zipIdx_map_fst,
    List.filterMap_eq_flatMap_toList]

/-- A lowered program requests what its model wishes. -/
theorem Model.LowersTo.hints {model : Model} {program : Program}
    (lowered : model.LowersTo program) :
    program.bindingRequests.map BindingRequest.hint =
      registerHints model.statics model.coroutines := by
  have locals : model.hoist.statics.flatMap (fun known => known.hint.toList) =
      model.statics.flatMap (fun known => known.hint.toList) ++
        model.coroutines.flatMap (fun known => known.locals.flatMap fun var => var.hint.toList) := by
    have coroutines := congrArg (List.flatMap fun known : Coroutine =>
      known.locals.flatMap fun var => var.hint.toList) (List.zipIdx_map_fst 0 model.coroutines)
    rw [Model.hoist, List.flatMap_append, List.flatMap_assoc, ← coroutines, List.flatMap_map]
    simp only [Coroutine.hoistedLocals, List.flatMap_map]
  have states : (model.coroutines.zip program.coroutines).map Prod.fst = model.coroutines :=
    List.map_fst_zip (Nat.le_of_eq lowered.length_coroutines.symm)
  have same := congrArg (List.flatMap fun known : Coroutine => known.stateHint.toList) states
  rw [List.flatMap_map] at same
  rw [Program.bindingRequests, List.map_append, registerHints, lowered.hoisted, ← locals, ← same]
  refine congrArg₂ (· ++ ·) (hints_filterMap _ fun numbered => ?_) (hints_filterMap _ ?_)
  · rw [Option.map_map]
    exact Option.map_id'
  · rintro ⟨⟨coroutine, machine⟩, id⟩
    rw [Option.map_map]
    exact Option.map_id'

/-- In a linked program no two wishes stand at the same place. -/
theorem Source.link_wishes {program : Program} {warnings : List (Located Warning)}
    (linked : source.link = .ok (program, warnings)) :
    program.bindingRequests.Pairwise fun one other =>
      one.hint.location.start ≠ other.hint.location.start := by
  obtain ⟨description, resolved, parsed, meant, lowered, -⟩ := link_eq_ok linked
  have apart := analyze_hints parsed meant
  rw [← (Model.lower_lowersTo lowered).hints, List.map_map] at apart
  exact List.pairwise_map.mp apart

end Coro
