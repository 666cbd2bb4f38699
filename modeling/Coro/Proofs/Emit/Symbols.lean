import Coro.Proofs.Resolution.Spelling

/-!
The symbols of a generated file are all different.

A symbol is a path, or a path behind one of a few marks. The marks differ from each other, and no
path starts like one of them. Behind the same mark, the path tells what the symbol stands for.
-/

namespace Coro.Emit

variable {one other symbol : FileSymbol} {program : Program} {id : StaticId}

/-- What a file declares or uses outside of its functions. -/
inductive FileSymbol where
  | static (id : StaticId)
  | external (id : ExternalId)
  | function (id : FunctionId)
  | state (id : CoroutineId)
  | step (id : CoroutineId)
  | hook (id : HookId)
  | counter (interval : Interval)
  | entry | ticksSeen | timebase | main
deriving Repr, DecidableEq

/-- What the symbols of one kind start with. -/
inductive Mark where
  | plain | state | step | hook | counter | entry | ticksSeen
deriving Repr, DecidableEq

namespace FileSymbol

/-- The symbol as it is written. -/
def text (program : Program) : FileSymbol → String
  | static id => (Names.ofLocals program.model []).var (.static id)
  | external id => (Names.ofLocals program.model []).callee (.external id)
  | function id => (Names.ofLocals program.model []).callee (.function id)
  | state id => stateSymbol program id
  | step id => stepSymbol program id
  | hook id => hookSymbol program id
  | counter interval => counterSymbol interval
  | entry => entrySymbol
  | ticksSeen => ticksSeenSymbol
  | timebase => timebaseSymbol
  | main => "main"

/-- All symbols of a file, those included that only some programs need. -/
def all (program : Program) : List FileSymbol :=
  (List.range program.model.statics.length).map static ++
  (List.range program.model.externals.length).map external ++
  (List.range program.model.functions.length).map function ++
  (List.range program.model.coroutines.length).map state ++
  (List.range program.model.coroutines.length).map step ++
  (List.range program.model.hooks.length).map hook ++
  Interval.all.map counter ++ [entry, ticksSeen, timebase, main]

theorem static_mem (small : id < program.model.statics.length) : static id ∈ all program := by
  simp [all, small]

theorem external_mem {id : ExternalId} (small : id < program.model.externals.length) :
    external id ∈ all program := by
  simp [all, small]

theorem function_mem {id : FunctionId} (small : id < program.model.functions.length) :
    function id ∈ all program := by
  simp [all, small]

/-- What a symbol starts with. -/
def mark : FileSymbol → Mark
  | state _ => .state
  | step _ => .step
  | hook _ => .hook
  | counter _ => .counter
  | entry => .entry
  | ticksSeen => .ticksSeen
  | _ => .plain

/-- The path behind the mark of a symbol. -/
def path (program : Program) : FileSymbol → Path
  | static id => (program.model.statics.getD id default).path
  | external id => .ofName (program.model.externals.getD id default).name
  | function id => .ofName (program.model.functions.getD id default).name
  | state id => (program.model.coroutines.getD id default).path
  | step id => (program.model.coroutines.getD id default).path
  | hook id => .ofName (program.model.hooks.getD id default).name
  | counter interval => .ofName interval.name
  | entry => ⟨[]⟩
  | ticksSeen => ⟨[]⟩
  | timebase => .ofName timebaseSymbol
  | main => .ofName "main"

end FileSymbol

namespace Mark

/-- The mark as it is written. -/
def text : Mark → String
  | plain => ""
  | state => "hilos_state__"
  | step => "hilos_step__"
  | hook => "hilos_hook__"
  | counter => "hilos_count__"
  | entry => "hilos_entry"
  | ticksSeen => "hilos_ticks_seen"

/-- A mark goes on with a letter. -/
theorem text_letter {mark : Mark} (marked : mark ≠ plain) :
    ∃ c rest, c ≠ '_' ∧ mark.text.toList = "hilos_".toList ++ c :: rest := by
  cases mark with
  | plain => exact absurd rfl marked
  | state => exact ⟨'s', "tate__".toList, by decide, by simp [text]⟩
  | step => exact ⟨'s', "tep__".toList, by decide, by simp [text]⟩
  | hook => exact ⟨'h', "ook__".toList, by decide, by simp [text]⟩
  | counter => exact ⟨'c', "ount__".toList, by decide, by simp [text]⟩
  | entry => exact ⟨'e', "ntry".toList, by decide, by simp [text]⟩
  | ticksSeen => exact ⟨'t', "icks_seen".toList, by decide, by simp [text]⟩

/-- No path starts like a mark. -/
theorem text_append_ne {mark : Mark} (marked : mark ≠ plain) {path : Path} (joined : path.Joined)
    (rest : String) : mark.text ++ rest ≠ path.symbol := by
  -- Behind the part that all marks share comes a letter, where a path could only go on with `_`.
  obtain ⟨c, letters, letter, same⟩ := text_letter marked
  intro equal
  refine joined.symbol_foreign letter (letters ++ rest.toList) ?_
  rw [← equal, String.toList_append, same, List.append_assoc, List.cons_append]

theorem text_append_inj {one other : Mark} {path path' : Path}
    (left : one = plain → path.Joined) (right : other = plain → path'.Joined)
    (same : one.text ++ path.symbol = other.text ++ path'.symbol) :
    one = other ∧ path.symbol = path'.symbol := by
  by_cases equal : one = other
  · subst equal
    exact ⟨rfl, String.append_right_inj _ |>.mp same⟩
  · have letters := congrArg String.toList same
    by_cases first : one = plain
    · have marked : other ≠ plain := fun second => equal (first.trans second.symm)
      subst first
      exact absurd (by simpa [text] using same.symm) (text_append_ne marked (left rfl) path'.symbol)
    · by_cases second : other = plain
      · subst second
        exact absurd (by simpa [text] using same) (text_append_ne first (right rfl) path.symbol)
      · -- Two marks differ before either of them ends.
        cases one <;> cases other
        all_goals first
          | exact absurd rfl first
          | exact absurd rfl second
          | exact absurd rfl equal
          | simp [text] at letters

end Mark

namespace FileSymbol

variable {program : Program} {model : Model}

theorem text_eq (symbol : FileSymbol) :
    symbol.text program = symbol.mark.text ++ (symbol.path program).symbol := by
  cases symbol <;>
    simp [text, mark, path, Mark.text, Names.ofLocals, stateSymbol, stepSymbol, hookSymbol,
      counterSymbol, entrySymbol, ticksSeenSymbol, Path.symbol, Path.ofName]

/-- The symbol with some mark that stands for an entity. -/
def ofEntity (model : Model) (mark : Mark) (owner : Owner) : Entity → FileSymbol
  | .static id => static id
  | .localVar id => static (model.firstHoisted (owner.coroutine?.getD 0) + id)
  | .external id => external id
  | .function id => function id
  | .coroutine id => if mark = .state then state id else step id
  | .hook id => hook id

/-- A symbol stands for an entity that is declared. -/
def Declared (model : Model) (program : Program) (symbol : FileSymbol) : Prop :=
  ∃ owner entity, model.naming.Places (symbol.path program) owner entity ∧
    ofEntity model symbol.mark owner entity = symbol

theorem Declared.joined (declared : symbol.Declared model program)
    (orderly : model.naming.Orderly IsWord) : (symbol.path program).Joined := by
  obtain ⟨owner, entity, placed, -⟩ := declared
  exact orderly.joined placed

/-- The path leads to one entity, and with the mark this tells the symbol. -/
theorem Declared.unique (left : one.Declared model program) (orderly : model.naming.Orderly IsWord)
    (right : other.Declared model program) (marks : one.mark = other.mark)
    (paths : one.path program = other.path program) : one = other := by
  obtain ⟨owner, entity, placed, stands⟩ := left
  obtain ⟨owner', entity', placed', stands'⟩ := right
  rw [paths] at placed
  obtain ⟨rfl, rfl⟩ := orderly.places_unique placed placed'
  rw [← stands, marks, stands']

/-- A symbol that every file has. -/
def fixed : List FileSymbol :=
  Interval.all.map counter ++ [entry, ticksSeen, timebase, main]

theorem mem_fixed : symbol ∈ fixed ↔
    (∃ interval, counter interval = symbol) ∨ symbol = entry ∨ symbol = ticksSeen ∨
      symbol = timebase ∨ symbol = main := by
  have every : ∀ interval, interval ∈ Interval.all := by
    intro interval
    cases interval <;> decide
  simp [fixed, every]

section Rooted

variable (rooted : model.naming.Rooted) (lowered : model.LowersTo program)

include rooted lowered

/-- The symbol of a static variable stands for it, or for a local variable that it keeps. -/
theorem static_declared (small : id < program.model.statics.length)
    : (static id).Declared model program := by
  have found := List.getElem?_eq_getElem small
  have written : (static id).path program = program.model.statics[id].path := by
    simp [path, List.getD_eq_getElem?_getD, found]
  rw [Declared, written]
  generalize program.model.statics[id] = storage at found
  rw [lowered.hoisted] at found
  rcases Model.hoist_cases found with declared | hoisted
  · exact ⟨storage.owner, .static id, rooted.static_places (by simp [Model.naming, declared]), rfl⟩
  · -- A kept variable has the path of the local variable in the body of its coroutine.
    obtain ⟨owner, coroutine, place, known, there, inner, rfl, same⟩ := hoisted
    refine ⟨.coroutine owner, .localVar place, ⟨coroutine.path, known.name, ?_, same, ?_⟩, rfl⟩
    · simp [Naming.path?, Model.naming, there]
    · simp [Naming.Declares, Model.naming, Model.body?, there, inner]

/-- A coroutine stands at the end of the path in its symbols. -/
theorem coroutine_places {id : CoroutineId} (small : id < program.model.coroutines.length) :
    ∃ owner, model.naming.Places (program.model.coroutines.getD id default).path owner
      (.coroutine id) := by
  rw [lowered.hoisted] at small ⊢
  have declared : id < model.coroutines.length := small
  exact ⟨.ofParent model.coroutines[id].parent,
    rooted.coroutine_places (by simp [Model.naming, Model.hoist, declared])⟩

/-- All symbols of a file stand for declared entities, or are in every file. -/
theorem declared_or_fixed (listed : symbol ∈ all program)
    : symbol.Declared model program ∨ symbol ∈ fixed := by
  have hoisted := lowered.hoisted
  simp only [all, List.append_assoc, List.mem_append, List.mem_map, List.mem_range] at listed
  rcases listed with ⟨id, small, rfl⟩ | ⟨id, small, rfl⟩ | ⟨id, small, rfl⟩ | ⟨id, small, rfl⟩ |
    ⟨id, small, rfl⟩ | ⟨id, small, rfl⟩ | constant
  · exact .inl (static_declared rooted lowered small)
  · refine .inl ⟨.global, .external id, Naming.global_places ⟨rfl, ?_⟩, rfl⟩
    rw [hoisted] at small ⊢
    have declared : id < model.externals.length := small
    simp [Model.naming, Model.hoist, declared]
  · refine .inl ⟨.global, .function id, Naming.global_places ⟨rfl, ?_⟩, rfl⟩
    rw [hoisted] at small ⊢
    have declared : id < model.functions.length := small
    simp [Model.naming, Model.hoist, declared]
  · obtain ⟨owner, placed⟩ := coroutine_places rooted lowered small
    exact .inl ⟨owner, .coroutine id, placed, rfl⟩
  · obtain ⟨owner, placed⟩ := coroutine_places rooted lowered small
    exact .inl ⟨owner, .coroutine id, placed, rfl⟩
  · refine .inl ⟨.global, .hook id, Naming.global_places ⟨rfl, ?_⟩, rfl⟩
    rw [hoisted] at small ⊢
    have declared : id < model.hooks.length := small
    simp [Model.naming, Model.hoist, declared]
  · exact .inr (by simpa [fixed] using constant)

end Rooted

theorem joinable_timebase : Joinable timebaseSymbol :=
  ⟨⟨by simp [timebaseSymbol], by simp [timebaseSymbol]; decide⟩,
    by simp [timebaseSymbol, hasDoubleUnderscore], by simp [timebaseSymbol],
    by simp [timebaseSymbol]⟩

section Orderly

variable (orderly : model.naming.Orderly IsWord)

include orderly

/-- The path in a symbol without a mark is made of names that can be joined. -/
theorem plain_joined (lowered : model.LowersTo program) (listed : symbol ∈ all program)
    (plain : symbol.mark = .plain) : (symbol.path program).Joined := by
  rcases declared_or_fixed orderly.rooted lowered listed with ⟨owner, entity, placed, -⟩ | constant
  · exact orderly.joined placed
  · rcases mem_fixed.mp constant with ⟨interval, rfl⟩ | rfl | rfl | rfl | rfl
    · cases plain
    · cases plain
    · cases plain
    · exact ⟨by simp [path, Path.ofName], by simpa [path, Path.ofName] using joinable_timebase⟩
    · exact ⟨by simp [path, Path.ofName], by simpa [path, Path.ofName] using joinable_main⟩

/-- No declared entity has a path of one reserved name. -/
theorem reserved_free {name : String} (reserved : isReserved name = true) {owner : Owner}
    {entity : Entity} : ¬ model.naming.Places (.ofName name) owner entity := by
  rintro ⟨around, last, leads, same, declared⟩
  obtain ⟨-, rfl⟩ := Path.member_inj.mp ((Path.ofName_eq_member name).symm.trans same)
  have free := ((orderly.apart owner).allowed name entity declared).1
  rw [reserved] at free
  cases free

/-- A symbol that every file has stands for no declared entity. -/
theorem fixed_ne_declared (constant : one ∈ fixed) (declared : other.Declared model program)
    (marks : one.mark = other.mark)
    (symbols : (one.path program).symbol = (other.path program).symbol) : False := by
  obtain ⟨owner, entity, placed, same⟩ := declared
  have joined := orderly.joined placed
  -- Three of the marks belong to no entity, and without a mark the name itself is reserved.
  have unmarked : other.mark ≠ .counter ∧ other.mark ≠ .entry ∧ other.mark ≠ .ticksSeen := by
    rw [← same]
    cases entity
    case coroutine id =>
      simp only [ofEntity]
      split <;> simp [mark]
    all_goals simp [ofEntity, mark]
  have single : ∀ {name : String}, Joinable name → isReserved name = true →
      (Path.ofName name).symbol ≠ (other.path program).symbol := by
    intro name joinable reserved equal
    have alone : (Path.ofName name).Joined := ⟨by simp [Path.ofName], by simpa [Path.ofName]⟩
    rw [← alone.symbol_inj joined equal] at placed
    exact reserved_free orderly reserved placed
  rcases mem_fixed.mp constant with ⟨interval, rfl⟩ | rfl | rfl | rfl | rfl
  · exact unmarked.1 marks.symm
  · exact unmarked.2.1 marks.symm
  · exact unmarked.2.2 marks.symm
  · exact single joinable_timebase (by decide) symbols
  · exact single joinable_main (by decide) symbols

end Orderly

theorem fixed_inj (left : one ∈ fixed) (right : other ∈ fixed) (marks : one.mark = other.mark)
    (symbols : (one.path program).symbol = (other.path program).symbol) : one = other := by
  rcases mem_fixed.mp left with ⟨early, rfl⟩ | rfl | rfl | rfl | rfl <;>
    rcases mem_fixed.mp right with ⟨late, rfl⟩ | rfl | rfl | rfl | rfl
  case inl.inl =>
    have names : early.name = late.name := by simpa [path, Path.symbol, Path.ofName] using symbols
    cases early <;> cases late <;> simp [Interval.name] at names ⊢
  all_goals simp [mark, path, Path.symbol, Path.ofName, timebaseSymbol] at marks symbols ⊢

theorem text_inj (orderly : model.naming.Orderly IsWord) (lowered : model.LowersTo program)
    (left : one ∈ all program) (right : other ∈ all program)
    (same : one.text program = other.text program) : one = other := by
  -- The marks and the paths agree one by one.
  rw [text_eq, text_eq] at same
  obtain ⟨marks, symbols⟩ := Mark.text_append_inj (plain_joined orderly lowered left)
    (plain_joined orderly lowered right) same
  rcases declared_or_fixed orderly.rooted lowered left with declared | constant
  · rcases declared_or_fixed orderly.rooted lowered right with declared' | constant'
    · exact declared.unique orderly declared' marks
        ((declared.joined orderly).symbol_inj (declared'.joined orderly) symbols)
    · exact (fixed_ne_declared orderly constant' declared marks.symm symbols.symm).elim
  · rcases declared_or_fixed orderly.rooted lowered right with declared' | constant'
    · exact (fixed_ne_declared orderly constant declared' marks symbols).elim
    · exact fixed_inj constant constant' marks symbols

/-- No symbol is listed twice. -/
theorem all_nodup (program : Program) : (all program).Nodup := by
  -- Symbols of one kind differ in their number, and from those of the kinds that follow.
  have before : ∀ (kind : Nat → FileSymbol) (count : Nat) {rest : List FileSymbol},
      Function.Injective kind → (∀ id, kind id ∉ rest) → rest.Nodup →
      ((List.range count).map kind ++ rest).Nodup := by
    intro kind count rest injective apart distinct
    refine (List.nodup_range.map injective).append distinct fun symbol here there => ?_
    obtain ⟨id, -, rfl⟩ := List.mem_map.mp here
    exact apart id there
  simp only [all, List.append_assoc]
  refine before static _ (fun _ _ => static.inj) (by simp) ?_
  refine before external _ (fun _ _ => external.inj) (by simp) ?_
  refine before function _ (fun _ _ => function.inj) (by simp) ?_
  refine before state _ (fun _ _ => state.inj) (by simp) ?_
  refine before step _ (fun _ _ => step.inj) (by simp) ?_
  refine before hook _ (fun _ _ => hook.inj) (by simp) ?_
  decide

end FileSymbol

end Coro.Emit

namespace Coro

/-- Entries of a list that differ in something are at different places. -/
theorem nodup_map_of_getElem? {α β : Type} {list : List α} {tell : α → β}
    (apart : ∀ (i j : Nat) one other, list[i]? = some one → list[j]? = some other →
      tell one = tell other → i = j) : (list.map tell).Nodup := by
  rw [List.nodup_iff_getElem?_ne_getElem?]
  intro i j before small same
  rw [List.length_map] at small
  simp only [List.getElem?_map, List.getElem?_eq_getElem small,
    List.getElem?_eq_getElem (Nat.lt_trans before small), Option.map_some, Option.some.injEq]
    at same
  exact absurd (apart i j _ _ (List.getElem?_eq_getElem _) (List.getElem?_eq_getElem _) same)
    (Nat.ne_of_lt before)

/-- Where entries differ in something, the first one found is the only one. -/
theorem findIdx?_of_nodup {α β : Type} [DecidableEq β] {list : List α} {tell : α → β}
    (apart : (list.map tell).Nodup) (told : β) (place : Nat) :
    list.findIdx? (fun entry => tell entry = told) = some place ↔
      ∃ entry, list[place]? = some entry ∧ tell entry = told := by
  have first : ∀ {i : Nat}, list.findIdx? (fun entry => tell entry = told) = some i →
      ∃ entry, list[i]? = some entry ∧ tell entry = told := by
    intro i found
    obtain ⟨small, same, -⟩ := List.findIdx?_eq_some_iff_getElem.mp found
    exact ⟨list[i], List.getElem?_eq_getElem small, of_decide_eq_true same⟩
  refine ⟨first, fun there => ?_⟩
  obtain ⟨entry, listed, same⟩ := there
  cases found : list.findIdx? (fun entry => tell entry = told) with
  | none =>
    have missing := List.findIdx?_eq_none_iff.mp found entry (List.mem_of_getElem? listed)
    exact absurd same (of_decide_eq_false missing)
  | some i =>
    obtain ⟨other, known, also⟩ := first found
    have small : i < (list.map tell).length := by
      simpa using (List.getElem?_eq_some_iff.mp known).1
    have place : i = place :=
      (List.getElem?_inj small apart).mp (by simp [known, listed, same, also])
    rw [place]

namespace Model.LowersTo

variable {model : Model} {program : Program}

variable (lowered : model.LowersTo program) (orderly : model.naming.Orderly IsWord)

include lowered orderly

/-- No two static variables have the same dotted path. -/
theorem static_paths_nodup :
    (program.model.statics.map fun storage => storage.path.dotted).Nodup := by
  refine nodup_map_of_getElem? fun i j one other left right same => ?_
  have first := Emit.FileSymbol.static_declared orderly.rooted lowered
    (List.getElem?_eq_some_iff.mp left).1
  have second := Emit.FileSymbol.static_declared orderly.rooted lowered
    (List.getElem?_eq_some_iff.mp right).1
  have paths := (first.joined orderly).dotted_inj (second.joined orderly)
    (by simpa [Emit.FileSymbol.path, left, right] using same)
  exact Emit.FileSymbol.static.inj (first.unique orderly second rfl paths)

/-- No two coroutines have the same dotted path. -/
theorem coroutine_paths_nodup :
    (program.model.coroutines.map fun coroutine => coroutine.path.dotted).Nodup := by
  refine nodup_map_of_getElem? fun i j one other left right same => ?_
  obtain ⟨owner, placed⟩ := Emit.FileSymbol.coroutine_places orderly.rooted lowered
    (List.getElem?_eq_some_iff.mp left).1
  obtain ⟨owner', placed'⟩ := Emit.FileSymbol.coroutine_places orderly.rooted lowered
    (List.getElem?_eq_some_iff.mp right).1
  rw [(orderly.joined placed).dotted_inj (orderly.joined placed')
    (by simpa [left, right] using same)] at placed
  exact Entity.coroutine.inj (orderly.places_unique placed placed').2

end Model.LowersTo

/--
All symbols of a generated file are different, and paths tell coroutines and static variables.

The static variables are those of the program: parameters and kept local variables are among them.
-/
theorem Emit.symbols_distinct {source : Source} {resolved : Resolved} {program : Program}
    (analyzed : source.analyze = .ok resolved) (lowered : resolved.model.lower = .ok program) :
    ((FileSymbol.all program).map (FileSymbol.text program)).Nodup ∧
    (program.model.coroutines.map fun coroutine => coroutine.path.dotted).Nodup ∧
    (program.model.statics.map fun storage => storage.path.dotted).Nodup ∧
    (∀ path id, program.model.findCoroutine? path = some id ↔
      ∃ coroutine, program.model.coroutines[id]? = some coroutine ∧
        coroutine.path.dotted = path) ∧
    ∀ path id, program.model.findStatic? path = some id ↔
      ∃ storage, program.model.statics[id]? = some storage ∧ storage.path.dotted = path := by
  have orderly := (Source.analyze_named analyzed).orderly
  have made := Model.lower_lowersTo lowered
  have coroutines := made.coroutine_paths_nodup orderly
  have statics := made.static_paths_nodup orderly
  refine ⟨?_, coroutines, statics, findIdx?_of_nodup coroutines, findIdx?_of_nodup statics⟩
  exact (FileSymbol.all_nodup program).map_on fun one left other right =>
    FileSymbol.text_inj orderly made left right

/-- Variables of the same name on the top level, in a thread, in its subroutine and elsewhere. -/
def Source.crowded : Source :=
  .ofText "crowded"
    "static u8 s;thread t{static u8 s;sub u{let u8 s=1;yield;}call u;}fn t_u(){static u8 s;}main{}"

theorem Source.crowded_links : ∃ program warnings, crowded.link = .ok (program, warnings) ∧
    program.model.statics.map (fun storage => storage.path.dotted) =
      ["s", "t.s", "t_u.s", "t.u.s"] :=
  crowded.links_of_decide (by decide +kernel)

/-- No symbol is written twice, and the variable of the subroutine is found by its path. -/
theorem Emit.crowded_symbols_distinct : ∃ program warnings,
    Source.crowded.link = .ok (program, warnings) ∧
    ((FileSymbol.all program).map (FileSymbol.text program)).Nodup ∧
    program.model.findStatic? "t.u.s" = some 3 := by
  obtain ⟨program, warnings, linked, paths⟩ := Source.crowded_links
  obtain ⟨description, resolved, parsed, meant, lowered, -⟩ := Source.link_eq_ok linked
  obtain ⟨symbols, -, -, -, found⟩ :=
    symbols_distinct (Source.analyze_eq_ok.mpr ⟨description, parsed, meant⟩) lowered
  have last := congrArg (·[3]?) paths
  rw [List.getElem?_map] at last
  exact ⟨program, warnings, linked, symbols,
    (found "t.u.s" 3).mpr (Option.map_eq_some_iff.mp last)⟩

end Coro
