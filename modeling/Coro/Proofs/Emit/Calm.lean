import Coro.Proofs.Emit.Scoping
import Mathlib.Data.List.GetD

/-!
The words in a line of a generated file.

Words are the longest runs of letters, digits and underscores. Most lines have neither of the words
that jumps are made of, nor a colon. No name may be such a word, so whatever is written with names,
numbers and marks has none of them.
-/

namespace Coro.Emit

/-- A word that has ended, if it has begun at all. -/
def ended (begun : List Char) : List (List Char) :=
  if begun = [] then [] else [begun]

/-- The words of a text behind the part of a word that has begun. -/
def wordsFrom (begun : List Char) : List Char → List (List Char)
  | [] => ended begun
  | c :: rest =>
    if isWordChar c then wordsFrom (begun ++ [c]) rest else ended begun ++ wordsFrom [] rest

theorem wordsFrom_append {mark : Char} (other : isWordChar mark = false)
    (begun text rest : List Char) :
    wordsFrom begun (text ++ mark :: rest) = wordsFrom begun text ++ wordsFrom [] rest := by
  induction text generalizing begun with
  | nil => simp [wordsFrom, other]
  | cons c text ih => by_cases word : isWordChar c = true <;> simp [wordsFrom, word, ih]

theorem wordsFrom_word {text : List Char} (inside : ∀ c ∈ text, isWordChar c = true)
    (begun : List Char) : wordsFrom begun text = ended (begun ++ text) := by
  induction text generalizing begun with
  | nil => simp [wordsFrom]
  | cons c text ih =>
    obtain ⟨first, rest⟩ := List.forall_mem_cons.mp inside
    simp [wordsFrom, first, ih rest]

/-- Words are made of the characters of the text. -/
theorem mem_wordsFrom {begun text word : List Char} (member : word ∈ wordsFrom begun text)
    {c : Char} (inside : c ∈ word) : c ∈ begun ∨ c ∈ text := by
  induction text generalizing begun with
  | nil =>
    simp only [wordsFrom, ended] at member
    split at member
    · exact absurd member List.not_mem_nil
    · exact .inl (List.mem_singleton.mp member ▸ inside)
  | cons d text ih =>
    simp only [wordsFrom, ended] at member
    split at member
    · have := ih member
      grind
    · grind

/-! ## Calm texts -/

/-- A text, behind the part of a word, without the words of jumps and without colons. -/
@[mk_iff]
structure Calm (begun text : List Char) : Prop where
  jump : ['g', 'o', 't', 'o'] ∉ wordsFrom begun text
  choice : ['c', 'a', 's', 'e'] ∉ wordsFrom begun text
  colon : ':' ∉ text

section Calm

variable {begun text rest : List Char} {c : Char}

@[simp] theorem calm_nil :
    Calm begun [] ↔ begun ≠ ['g', 'o', 't', 'o'] ∧ begun ≠ ['c', 'a', 's', 'e'] := by
  rw [calm_iff, wordsFrom, ended]
  split
  · simp_all
  · simp [eq_comm]

@[simp] theorem calm_cons_word (word : isWordChar c = true) :
    Calm begun (c :: rest) ↔ Calm (begun ++ [c]) rest := by
  have plain : ':' ≠ c := by
    rintro rfl
    simp [isWordChar] at word
  simp [calm_iff, wordsFrom, word, plain]

@[simp] theorem calm_append (other : isWordChar c = false) :
    Calm begun (text ++ c :: rest) ↔ Calm begun text ∧ c ≠ ':' ∧ Calm [] rest := by
  simp only [calm_iff, wordsFrom_append other, List.mem_append, List.mem_cons]
  tauto

@[simp] theorem calm_cons (other : isWordChar c = false) :
    Calm begun (c :: rest) ↔ Calm begun [] ∧ c ≠ ':' ∧ Calm [] rest := by
  rw [← calm_append other, List.nil_append]

/-- A text of word characters is calm unless it is one of the two words. -/
theorem calm_word (inside : ∀ c ∈ text, isWordChar c = true) (jump : text ≠ ['g', 'o', 't', 'o'])
    (choice : text ≠ ['c', 'a', 's', 'e']) : Calm [] text := by
  have whole := wordsFrom_word inside []
  rw [List.nil_append, ended] at whole
  refine ⟨?_, ?_, fun member => absurd (inside ':' member) (by decide)⟩
  · rw [whole]
    split <;> simp [jump.symm]
  · rw [whole]
    split <;> simp [choice.symm]

/-- Neither of the two words is written without letters. -/
theorem calm_of_no_letter (digits : ∀ c ∈ text, c.isDigit = true ∨ c = '-') : Calm [] text := by
  have absent : ∀ c, c.isDigit = false → c ≠ '-' → c ∉ text := by
    intro c letter other member
    rcases digits c member with digit | rfl
    · rw [digit] at letter
      cases letter
    · exact other rfl
  refine ⟨fun member => ?_, fun member => ?_, absent ':' (by decide) (by decide)⟩
  · have inside := (mem_wordsFrom member (c := 'o') (by decide)).resolve_left (by simp)
    exact absent 'o' (by decide) (by decide) inside
  · have inside := (mem_wordsFrom member (c := 'a') (by decide)).resolve_left (by simp)
    exact absent 'a' (by decide) (by decide) inside

end Calm

@[simp] theorem calm_nat (number : Nat) : Calm [] (Nat.toDigits 10 number) :=
  calm_of_no_letter fun _ member =>
    .inl (Nat.isDigit_of_mem_toDigits (by decide) (by decide) member)

@[simp] theorem calm_int (number : Int) : Calm [] number.repr.toList := by
  cases number with
  | ofNat value =>
    show Calm [] value.repr.toList
    simp
  | negSucc value =>
    show Calm [] ("-" ++ (value + 1).repr).toList
    simp [isWordChar]

/-- Calm texts with commas between them are calm. -/
theorem calm_intercalate {texts : List String} (calm : ∀ text ∈ texts, Calm [] text.toList) :
    Calm [] (", ".intercalate texts).toList := by
  rw [String.toList_intercalate]
  induction texts with
  | nil => simp
  | cons first rest ih =>
    obtain ⟨here, later⟩ := List.forall_mem_cons.mp calm
    cases rest with
    | nil => simpa using here
    | cons second rest =>
      have behind := ih later
      rw [List.map_cons, List.map_cons, List.intercalate_cons_cons, ← List.map_cons]
      simpa [isWordChar, here] using behind

/-! ## Names -/

section Names

variable {model : Model} {program : Program}

/-- A name that may be declared is calm. -/
theorem calm_of_allowed {name : String} (free : isReserved name = false) (word : IsWord name) :
    Calm [] name.toList := by
  refine calm_word word.2 ?_ ?_
  · intro same
    obtain rfl : name = "goto" := String.toList_inj.mp (by simpa using same)
    exact absurd free (by decide)
  · intro same
    obtain rfl : name = "case" := String.toList_inj.mp (by simpa using same)
    exact absurd free (by decide)

/-- A symbol is made of word characters. -/
theorem joined_chars {path : Path} (joined : path.Joined) :
    ∀ c ∈ path.symbol.toList, isWordChar c = true := by
  obtain ⟨names⟩ := path
  have words := joined.names
  rw [Path.toList_symbol]
  clear joined
  induction names with
  | nil => simp
  | cons first rest ih =>
    obtain ⟨here, later⟩ := List.forall_mem_cons.mp words
    cases rest with
    | nil => simpa using here.word.2
    | cons second rest =>
      have behind := ih later
      simp only [List.map_cons, List.intercalate_cons_cons] at behind ⊢
      intro c member
      simp only [List.mem_append] at member
      rcases member with (early | between) | late
      · exact here.word.2 c early
      · simp only [List.mem_cons, List.not_mem_nil, or_false, or_self] at between
        rw [between]
        decide
      · exact behind c late

/-- The path of a declared entity is not one of the two words. -/
theorem calm_placed (orderly : model.naming.Orderly IsWord) {path : Path} {owner : Owner}
    {entity : Entity} (placed : model.naming.Places path owner entity) :
    Calm [] path.symbol.toList := by
  have joined := orderly.joined placed
  have other : ∀ {name : String}, Joinable name → isReserved name = true →
      path.symbol.toList ≠ name.toList := by
    intro name joinable reserved same
    have alone : (Path.ofName name).Joined := ⟨by simp [Path.ofName], by simpa [Path.ofName]⟩
    have equal : path = .ofName name := joined.symbol_inj alone
      (String.toList_inj.mp (by simpa [Path.symbol, Path.ofName] using same))
    exact FileSymbol.reserved_free orderly reserved (equal ▸ placed)
  refine calm_word (joined_chars joined) ?_ ?_
  · have free : Joinable "goto" :=
      ⟨⟨by simp, by simp [isWordChar]⟩, by simp [hasDoubleUnderscore], by simp, by simp⟩
    simpa using other free (by decide)
  · have free : Joinable "case" :=
      ⟨⟨by simp, by simp [isWordChar]⟩, by simp [hasDoubleUnderscore], by simp, by simp⟩
    simpa using other free (by decide)

/-- A text behind a mark is calm. -/
theorem calm_marked {mark : Mark} (marked : mark ≠ .plain) {text : String}
    (inside : ∀ c ∈ text.toList, isWordChar c = true) : Calm [] (mark.text ++ text).toList := by
  rw [String.toList_append]
  -- All marks start with the same letter, which starts neither of the two words.
  cases mark with
  | plain => exact absurd rfl marked
  | _ =>
    refine calm_word ?_ ?_ ?_
    · simpa [Mark.text, isWordChar] using inside
    all_goals simp [Mark.text]

variable (orderly : model.naming.Orderly IsWord) (lowered : model.LowersTo program)

include orderly lowered

/-- All symbols of a file are calm. -/
theorem calm_text {symbol : FileSymbol} (listed : symbol ∈ FileSymbol.all program) :
    Calm [] (symbol.text program).toList := by
  rcases FileSymbol.declared_or_fixed orderly.rooted lowered listed with declared | constant
  · rw [FileSymbol.text_eq]
    by_cases plain : symbol.mark = .plain
    · obtain ⟨owner, entity, placed, -⟩ := declared
      simpa [plain, Mark.text] using calm_placed orderly placed
    · exact calm_marked plain (joined_chars (declared.joined orderly))
  · rcases FileSymbol.mem_fixed.mp constant with ⟨interval, rfl⟩ | rfl | rfl | rfl | rfl
    · cases interval <;> simp [FileSymbol.text, counterSymbol, Interval.name, isWordChar]
    all_goals
      simp [FileSymbol.text, entrySymbol, ticksSeenSymbol, timebaseSymbol, isWordChar]

/-- Whatever symbol is written, it is calm: where nothing has the number, only a mark is left. -/
theorem calm_symbol (symbol : FileSymbol) : Calm [] (symbol.text program).toList := by
  by_cases listed : symbol ∈ FileSymbol.all program
  · exact calm_text orderly lowered listed
  · have bare : symbol.text program = symbol.mark.text ++ "" := by
      cases symbol with
      | static id | external id | function id | state id | step id | hook id =>
        simp [FileSymbol.all] at listed
        simp only [FileSymbol.text, Names.ofLocals, stateSymbol, stepSymbol, hookSymbol,
          List.getD_eq_default _ _ listed]
        rfl
      | counter interval => cases interval <;> simp [FileSymbol.all, Interval.all] at listed
      | _ => simp [FileSymbol.all] at listed
    rw [bare]
    by_cases plain : symbol.mark = .plain
    · simp [plain, Mark.text]
    · exact calm_marked plain (by simp)

/-- All names in a body are calm. -/
structure CalmNames (names : Names) : Prop where
  var : ∀ var, Calm [] (names.var var).toList
  callee : ∀ callee, Calm [] (names.callee callee).toList

/-- The names in a body are calm if those of its local variables are. -/
theorem calmNames {locals : List Local} (calm : ∀ known ∈ locals, Calm [] known.name.toList) :
    CalmNames (.ofLocals program.model locals) := by
  have symbols := calm_symbol orderly lowered
  refine ⟨fun var => ?_, fun callee => ?_⟩
  · cases var with
    | static id => exact symbols (.static id)
    | external id => exact symbols (.external id)
    | localVar id =>
      show Calm [] (locals.getD id default).name.toList
      by_cases small : id < locals.length
      · rw [List.getD_eq_getElem _ _ small]
        exact calm _ (List.getElem_mem small)
      · rw [List.getD_eq_default _ _ (Nat.le_of_not_lt small)]
        show Calm [] []
        simp
  · cases callee with
    | function id => exact symbols (.function id)
    | external id => exact symbols (.external id)

end Names

/-! ## Expressions -/

mutual

/-- An expression is calm. -/
theorem calm_expr {names : Names} (calm : CalmNames names) (expr : Expr) :
    Calm [] (exprText names expr).toList := by
  cases expr with
  | const value => simp [exprText]
  | read var => exact calm.var var
  | element var index =>
    have inner := calm_expr calm index
    simp [exprText, isWordChar, calm.var var, inner]
  | call callee args =>
    have inner := calm_intercalate (calm_exprs calm args)
    simpa [exprText, isWordChar, calm.callee callee] using inner
  | unary op operand =>
    have inner := calm_expr calm operand
    cases op <;> simp [exprText, UnaryOp.symbol, isWordChar, inner]
  | binary op left right =>
    have first := calm_expr calm left
    have second := calm_expr calm right
    cases op <;> simp [exprText, BinaryOp.symbol, isWordChar, first, second]

theorem calm_exprs {names : Names} (calm : CalmNames names) (exprs : List Expr) :
    ∀ text ∈ exprTexts names exprs, Calm [] text.toList := by
  cases exprs with
  | nil => simp [exprTexts]
  | cons first rest => exact List.forall_mem_cons.mpr ⟨calm_expr calm first, calm_exprs calm rest⟩

end

theorem calm_place {names : Names} (calm : CalmNames names) (place : Place) :
    Calm [] (placeText names place).toList := by
  have name := calm.var place.var
  rw [placeText]
  split
  · exact name
  · rename_i index _
    have inner := calm_expr calm index
    simp [isWordChar, name, inner]

/-! ## Lines of functions -/

theorem calm_storageType (target : Target) (type : IntType) :
    Calm [] (target.storageType type).toList := by
  cases target <;> cases type <;> simp [Target.storageType, isWordChar]

/-- A declaration of a local variable is calm. -/
theorem calm_localLines (target : Target) {locals : List Local}
    (calm : ∀ known ∈ locals, Calm [] known.name.toList) :
    ∀ line ∈ localLines target locals, Calm [] line.toList := by
  intro line member
  obtain ⟨known, listed, rfl⟩ := List.mem_map.mp member
  have type := calm_storageType target known.type
  have name := calm known listed
  cases known.length <;> simp [isWordChar, type, name]

theorem calm_attributes (tuning : Tuning) (inlined : Bool) {text : String}
    (calm : Calm [] text.toList) : Calm [] (attributes tuning inlined ++ text).toList := by
  rw [attributes]
  split <;> split <;> try split
  all_goals simp [isWordChar, calm]

/-- A signature is calm if its parts are, and what stands before it ends with a blank. -/
theorem calm_signature {before returns name inside : String}
    (blank : ∀ {text : String}, Calm [] text.toList → Calm [] (before ++ text).toList)
    (type : Calm [] returns.toList) (named : Calm [] name.toList) (calm : Calm [] inside.toList) :
    Calm [] ("static " ++ before ++ returns ++ " " ++ name ++ "(" ++ inside ++ ")").toList := by
  have behind : Calm [] (returns ++ " " ++ name ++ "(" ++ inside ++ ")").toList := by
    simp [isWordChar, type, named, calm]
  simpa [isWordChar] using blank behind

theorem calm_procedureSignature {before symbol : String}
    (blank : ∀ {text : String}, Calm [] text.toList → Calm [] (before ++ text).toList)
    (calm : Calm [] symbol.toList) : Calm [] (procedureSignature before symbol).toList := by
  have void : Calm [] "void".toList := by simp [isWordChar]
  simpa [procedureSignature] using calm_signature blank void calm void

/-- The signature of a function is calm. -/
theorem calm_functionSignature (target : Target) {function : Function}
    (name : Calm [] function.name.toList)
    (calm : ∀ known ∈ function.locals, Calm [] known.name.toList) :
    Calm [] (functionSignature target function).toList := by
  have void : Calm [] "void".toList := by simp [isWordChar]
  refine calm_signature (calm_attributes function.tuning false) ?_ name ?_
  · cases function.returns with
    | none => exact void
    | some type => exact calm_storageType target type
  · split
    · exact void
    · refine calm_intercalate fun parameter member => ?_
      obtain ⟨known, taken, rfl⟩ := List.mem_map.mp member
      have type := calm_storageType target known.type
      have listed := calm known (List.mem_of_mem_take taken)
      simp [isWordChar, type, listed]

/-! ## The start of the program -/

theorem calm_indent {lines : List String} (calm : ∀ line ∈ lines, Calm [] line.toList) :
    ∀ line ∈ lines.map indent, Calm [] line.toList := by
  intro line member
  obtain ⟨inner, listed, rfl⟩ := List.mem_map.mp member
  simp [indent, isWordChar, calm inner listed]

section Start

variable {program : Program} (symbols : ∀ symbol : FileSymbol, Calm [] (symbol.text program).toList)

include symbols

theorem calm_hookCalls (hooks : List HookId) :
    ∀ line ∈ hookCalls program hooks, Calm [] line.toList := by
  intro line member
  obtain ⟨hook, -, rfl⟩ := List.mem_map.mp member
  have symbol : Calm [] (hookSymbol program hook).toList := symbols (.hook hook)
  simp [isWordChar, symbol]

/-- What one tick does is calm. -/
theorem calm_dispatchLines (dispatch : Dispatch) :
    ∀ line ∈ dispatchLines program dispatch, Calm [] line.toList := by
  induction dispatch with
  | last hooks => exact calm_hookCalls symbols hooks
  | level hooks next rest ih =>
    have counter : Calm [] (counterSymbol next).toList := symbols (.counter next)
    have inner := calm_indent (List.forall_mem_cons.mpr
      (show Calm [] (counterSymbol next ++ " = 0;").toList ∧ _ from
        ⟨by simp [isWordChar, counter], ih⟩))
    simp only [dispatchLines, List.forall_mem_append]
    refine ⟨⟨⟨calm_hookCalls symbols hooks, ?_⟩, inner⟩, ?_⟩
    · simp [isWordChar, counter]
    · simp [isWordChar]

/-- Setting what registers hold is calm. -/
theorem calm_bindingLine (binding : Binding) :
    Calm [] (bindingLine program binding).toList := by
  rw [bindingLine]
  cases binding.storage with
  | static id =>
    have symbol := symbols (.static id)
    simpa [FileSymbol.text, Names.ofLocals, isWordChar] using symbol
  | state id =>
    have symbol : Calm [] (stateSymbol program id).toList := symbols (.state id)
    simp [isWordChar, symbol]

/-- A pass is calm. -/
theorem calm_passLines : ∀ line ∈ passLines program, Calm [] line.toList := by
  have seen : Calm [] ticksSeenSymbol.toList := symbols .ticksSeen
  have timebase : Calm [] timebaseSymbol.toList := symbols .timebase
  refine List.forall_mem_append.mpr ⟨List.forall_mem_append.mpr ⟨calm_hookCalls symbols _, ?_⟩, ?_⟩
  · intro line member
    obtain ⟨thread, -, rfl⟩ := List.mem_map.mp member
    have step : Calm [] (stepSymbol program thread).toList := symbols (.step thread)
    simp [isWordChar, step]
  · cases dispatch? program.model with
    | none => simp
    | some dispatch =>
      have inner := calm_indent (List.forall_mem_cons.mpr
        (show Calm [] ("++" ++ ticksSeenSymbol ++ ";").toList ∧ _ from
          ⟨by simp [isWordChar, seen], calm_dispatchLines symbols dispatch⟩))
      simp only [List.forall_mem_append]
      refine ⟨⟨?_, inner⟩, ?_⟩
      · simp [isWordChar, seen, timebase]
      · simp [isWordChar]

/-- The function that starts the program is calm. -/
theorem calm_mainLines (plan : Plan) : ∀ line ∈ mainLines program plan, Calm [] line.toList := by
  have entry : Calm [] entrySymbol.toList := symbols .entry
  have boot : ∀ line ∈ plan.bindings.map (bindingLine program) ++
      hookCalls program (program.model.hooksOn .init) ++ [entrySymbol ++ "();"],
      Calm [] line.toList := by
    simp only [List.forall_mem_append, List.forall_mem_map, List.forall_mem_singleton]
    refine ⟨⟨fun binding _ => calm_bindingLine symbols binding, calm_hookCalls symbols _⟩, ?_⟩
    simp [isWordChar, entry]
  have forever : ∀ line ∈ ["for (;;) \x7b"] ++ (passLines program).map indent ++ ["\x7d"],
      Calm [] line.toList := by
    have inner := calm_indent (calm_passLines symbols)
    simp only [List.forall_mem_append]
    refine ⟨⟨?_, inner⟩, ?_⟩
    · simp [isWordChar]
    · simp [isWordChar]
  have inside := calm_indent boot
  have behind := calm_indent forever
  simp only [mainLines, List.forall_mem_append]
  refine ⟨⟨⟨⟨?_, inside⟩, ?_⟩, behind⟩, ?_⟩
  all_goals simp [isWordChar]

end Start

end Coro.Emit
