import Coro.Proofs.Emit.Calm
import Coro.Proofs.Program.Labels
import Coro.Proofs.Token.Cutting

/-!
Labels and jumps in the functions of a generated file, read off their lines.

What a line jumps to is the word behind `goto`, and what it places is the word before its colon. In
every function each jump, and with it each case of a switch, has exactly one label to go to, and no
label is left without a jump.
-/

namespace Coro.Emit

variable {code : Code} {words : List (List Char)} {program : Program} {line name signature : String}

/-! ## Reading lines -/

/-- The words that stand right behind `goto`. -/
def behindJumps : List (List Char) → List (List Char)
  | word :: next :: rest =>
    (if word = "goto".toList then [next] else []) ++ behindJumps (next :: rest)
  | _ => []

/-- The labels that a line jumps to. -/
def jumped (line : String) : List String :=
  (behindJumps (wordsFrom [] line.toList)).map String.ofList

/-- The only word of a text with a single one. -/
def only? : List (List Char) → Option (List Char)
  | [word] => some word
  | _ => none

/-- The label that a line places: the only word before its colon, if this is not `default`. -/
def placed? (line : String) : Option String :=
  if ':' ∈ line.toList then
    ((only? (wordsFrom [] (line.toList.takeWhile (· ≠ ':')))).filter
      (· ≠ "default".toList)).map String.ofList
  else none

/-- A line with a word. -/
def Has (word line : String) : Prop :=
  word.toList ∈ wordsFrom [] line.toList

/-- Jumps and labels of a function belong together. -/
structure LabelsMatch (lines : List String) : Prop where
  /-- No label is placed twice. -/
  once : (lines.filterMap placed?).Nodup
  /-- What is jumped to is placed, and what is placed is jumped to. -/
  used : ∀ name, name ∈ lines.flatMap jumped ↔ name ∈ lines.filterMap placed?
  /-- Every case of a switch jumps. -/
  cases : ∀ line ∈ lines, Has "case" line → jumped line ≠ []
  /-- A colon stands behind a label, in a case or in the default of a switch. -/
  colons : ∀ line ∈ lines, ':' ∈ line.toList →
    (placed? line).isSome = true ∨ Has "case" line ∨ Has "default" line

/-! ## Marks of lines -/

/-- Some lines place these labels and jump to those, in this order. -/
structure Marked (lines placed jumps : List String) : Prop where
  placed : lines.filterMap placed? = placed
  jumped : lines.flatMap jumped = jumps
  cases : ∀ line ∈ lines, Has "case" line → Emit.jumped line ≠ []
  colons : ∀ line ∈ lines, ':' ∈ line.toList →
    (placed? line).isSome = true ∨ Has "case" line ∨ Has "default" line

theorem behindJumps_cons {word : List Char} (other : word ≠ ['g', 'o', 't', 'o'])
    (rest : List (List Char)) : behindJumps (word :: rest) = behindJumps rest := by
  cases rest with
  | nil => rfl
  | cons next rest => rw [behindJumps, if_neg (by simpa using other), List.nil_append]

theorem behindJumps_append (absent : ['g', 'o', 't', 'o'] ∉ words) (rest : List (List Char)) :
    behindJumps (words ++ rest) = behindJumps rest := by
  induction words with
  | nil => rfl
  | cons word words ih =>
    rw [List.mem_cons, not_or] at absent
    rw [List.cons_append, behindJumps_cons (Ne.symm absent.1), ih absent.2]

theorem behindJumps_eq_nil (absent : ['g', 'o', 't', 'o'] ∉ words) : behindJumps words = [] := by
  have whole := behindJumps_append absent []
  rwa [List.append_nil] at whole

theorem toList_indent (line : String) : (indent line).toList = '\t' :: line.toList := by
  simp [indent]

theorem wordsFrom_tab (text : List Char) : wordsFrom [] ('\t' :: text) = wordsFrom [] text := by
  rw [wordsFrom, if_neg (by decide)]
  rfl

theorem words_indent (line : String) :
    wordsFrom [] (indent line).toList = wordsFrom [] line.toList := by
  rw [toList_indent, wordsFrom_tab]

theorem colon_indent (line : String) : ':' ∈ (indent line).toList ↔ ':' ∈ line.toList := by
  simp [toList_indent]

theorem placed?_indent (line : String) : placed? (indent line) = placed? line := by
  simp only [placed?, colon_indent]
  rw [toList_indent, List.takeWhile_cons_of_pos (by decide), wordsFrom_tab]

/-- A jump has two words. -/
theorem words_jump (word : IsWord name) :
    wordsFrom [] ("goto " ++ name ++ ";").toList = [['g', 'o', 't', 'o'], name.toList] := by
  have chars : ("goto " ++ name ++ ";").toList =
      ['g', 'o', 't', 'o'] ++ ' ' :: (name.toList ++ ';' :: []) := by simp
  rw [chars, wordsFrom_append (by decide), wordsFrom_append (by decide), wordsFrom_word word.2,
    List.nil_append, ended, if_neg word.1]
  rfl

theorem colon_jump (word : IsWord name) : ':' ∉ ("goto " ++ name ++ ";").toList := by
  have inside : ':' ∉ name.toList := fun member => absurd (word.2 ':' member) (by decide)
  simp [inside]

namespace Marked

variable {lines more placed jumps placed' jumps' : List String}

theorem nil : Marked [] [] [] :=
  ⟨rfl, rfl, by simp, by simp⟩

theorem append (first : Marked lines placed jumps) (second : Marked more placed' jumps') :
    Marked (lines ++ more) (placed ++ placed') (jumps ++ jumps') where
  placed := by rw [List.filterMap_append, first.placed, second.placed]
  jumped := by rw [List.flatMap_append, first.jumped, second.jumped]
  cases := List.forall_mem_append.mpr ⟨first.cases, second.cases⟩
  colons := List.forall_mem_append.mpr ⟨first.colons, second.colons⟩

/-- Calm lines neither place labels nor jump. -/
theorem calm (calm : ∀ line ∈ lines, Calm [] line.toList) : Marked lines [] [] where
  placed := by
    refine List.filterMap_eq_nil_iff.mpr fun line member => ?_
    rw [placed?, if_neg (calm line member).colon]
  jumped := by
    refine List.flatMap_eq_nil_iff.mpr fun line member => ?_
    rw [Emit.jumped, behindJumps_eq_nil (calm line member).jump, List.map_nil]
  cases line member has := by
    have absent := (calm line member).choice
    exact absurd (by simpa [Has] using has) absent
  colons line member colon := absurd colon (calm line member).colon

/-- Lines further in. -/
theorem indent (marked : Marked lines placed jumps) :
    Marked (lines.map Emit.indent) placed jumps where
  placed := by simpa [List.filterMap_map, Function.comp_def, placed?_indent] using marked.placed
  jumped := by
    have same : ∀ line, Emit.jumped (Emit.indent line) = Emit.jumped line := by
      intro line
      rw [Emit.jumped, words_indent, Emit.jumped]
    simpa [List.flatMap_map, same] using marked.jumped
  cases := by
    refine List.forall_mem_map.mpr fun line member has => ?_
    rw [Has, words_indent] at has
    rw [Emit.jumped, words_indent]
    exact marked.cases line member has
  colons := by
    refine List.forall_mem_map.mpr fun line member colon => ?_
    rw [Has, Has, placed?_indent, words_indent]
    exact marked.colons line member ((colon_indent line).mp colon)

/-- A single line. -/
theorem single (told : (placed? line).toList = placed) (leads : Emit.jumped line = jumps)
    (choice : Has "case" line → Emit.jumped line ≠ [])
    (colon : ':' ∈ line.toList → (placed? line).isSome = true ∨ Has "case" line ∨
      Has "default" line) :
    Marked [line] placed jumps where
  placed := by
    rw [← told]
    cases found : placed? line <;> simp [found]
  jumped := by rw [List.flatMap_singleton, leads]
  cases := List.forall_mem_singleton.mpr choice
  colons := List.forall_mem_singleton.mpr colon

/-- A line that places a label. -/
theorem label (word : IsWord name) (calm : Calm [] name.toList)
    (other : name.toList ≠ "default".toList) : Marked [name ++ ":;"] [name] [] := by
  have colon : (name ++ ":;").toList = name.toList ++ ':' :: [';'] := by
    rw [String.toList_append]
    rfl
  have alone : wordsFrom [] name.toList = [name.toList] := by
    rw [wordsFrom_word word.2, List.nil_append, ended, if_neg word.1]
  have words : wordsFrom [] (name ++ ":;").toList = [name.toList] := by
    rw [colon, wordsFrom_append (by decide), alone]
    rfl
  have told : placed? (name ++ ":;") = some name := by
    have before : (name ++ ":;").toList.takeWhile (· ≠ ':') = name.toList := by
      rw [colon, List.takeWhile_append_of_pos]
      · simp
      · intro c member
        refine decide_eq_true ?_
        rintro rfl
        exact calm.colon member
    rw [placed?, if_pos (by simp [colon]), before, alone, only?, Option.filter_some,
      if_pos (decide_eq_true other), Option.map_some, String.ofList_toList]
  refine single (by rw [told]; rfl) ?_ (fun has => ?_) fun _ => .inl (by rw [told]; rfl)
  · rw [Emit.jumped, words]
    rfl
  · -- The only word is the label.
    rw [Has, words, List.mem_singleton] at has
    refine absurd ?_ calm.choice
    rw [alone, ← has]
    simp

/-- A line that ends with a jump. -/
theorem ofWords {front : List (List Char)}
    (words : wordsFrom [] line.toList = front ++ [['g', 'o', 't', 'o'], name.toList])
    (absent : ['g', 'o', 't', 'o'] ∉ front) (free : placed? line = none)
    (colon : ':' ∈ line.toList → Has "case" line) : Marked [line] [] [name] := by
  have leads : Emit.jumped line = [name] := by
    rw [Emit.jumped, words, behindJumps_append absent]
    simp [behindJumps]
  refine single (by rw [free]; rfl) leads (fun _ => ?_) fun there => .inr (.inl (colon there))
  rw [leads]
  exact List.cons_ne_nil name []

theorem jump (word : IsWord name) : Marked ["goto " ++ name ++ ";"] [] [name] := by
  have colon := colon_jump word
  exact .ofWords (words_jump word) List.not_mem_nil (if_neg colon) fun there => absurd there colon

/-- A line with a jump behind calm text. -/
theorem jumpBehind {before : String} (word : IsWord name) (calm : Calm [] before.toList)
    (chars : line.toList = before.toList ++ ' ' :: ("goto " ++ name ++ ";").toList) :
    Marked [line] [] [name] := by
  have words : wordsFrom [] line.toList =
      wordsFrom [] before.toList ++ [['g', 'o', 't', 'o'], name.toList] := by
    rw [chars, wordsFrom_append (by decide), words_jump word]
  have colon : ':' ∉ line.toList := by
    rw [chars, List.mem_append, List.mem_cons]
    rintro (early | same | late)
    · exact calm.colon early
    · exact absurd same (by decide)
    · exact colon_jump word late
  exact .ofWords words calm.jump (if_neg colon) fun there => absurd there colon

end Marked

/-! ## Labels of code -/

/-- The symbol that an instruction places. -/
def placedSymbol? : Instr → Option String
  | .setLabel label => some (labelSymbol label)
  | .resume point => some (resumeSymbol point)
  | _ => none

theorem isWord_numbered (front : String) (word : IsWord front) (number : Nat) :
    IsWord (front ++ toString number) := by
  refine ⟨by simp [word.1], fun c member => ?_⟩
  rw [String.toList_append] at member
  rcases List.mem_append.mp member with early | late
  · exact word.2 c early
  · exact isWordChar_digit (isDigit_of_mem_toString late)

theorem isWord_labelSymbol (label : Label) : IsWord (labelSymbol label) :=
  isWord_numbered "l" ⟨by simp, by simp [isWordChar]⟩ label

theorem isWord_resumeSymbol (point : Point) : IsWord (resumeSymbol point) :=
  isWord_numbered "resume_" ⟨by simp, by simp [isWordChar]⟩ point

theorem labelSymbol_ne_resumeSymbol (label : Label) (point : Point) :
    labelSymbol label ≠ resumeSymbol point := by
  intro same
  have chars := congrArg String.toList same
  simp [labelSymbol, resumeSymbol] at chars

section Code

variable {program : Program} (symbols : ∀ symbol : FileSymbol, Calm [] (symbol.text program).toList)
  {names : Names} (calm : CalmNames names) (self : Option CoroutineId)

include symbols calm

/-- The lines of an instruction place its label and jump to its target. -/
theorem marked_instrLines (instr : Instr) :
    Marked (instrLines program names self instr) (placedSymbol? instr).toList
      (instr.target?.map labelSymbol).toList := by
  have state : ∀ id, Calm [] (stateSymbol program id).toList := fun id => symbols (.state id)
  have step : ∀ id, Calm [] (stepSymbol program id).toList := fun id => symbols (.step id)
  cases instr with
  | setLabel label =>
    have word := isWord_labelSymbol label
    exact .label word (calm_word word.2 (by simp [labelSymbol]) (by simp [labelSymbol]))
      (by simp [labelSymbol])
  | resume point =>
    have word := isWord_resumeSymbol point
    exact .label word (calm_word word.2 (by simp [resumeSymbol]) (by simp [resumeSymbol]))
      (by simp [resumeSymbol])
  | jump label => exact .jump (isWord_labelSymbol label)
  | jumpIfFalse condition label =>
    have inner := calm_expr calm condition
    have before : Calm [] ("if (!" ++ exprText names condition ++ ")").toList := by
      simp [isWordChar, inner]
    exact .jumpBehind (isWord_labelSymbol label) before (by simp)
  | assign place op value =>
    have first := calm_place calm place
    have second := calm_expr calm value
    refine .calm (List.forall_mem_singleton.mpr ?_)
    cases op with
    | none => simp [isWordChar, first, second]
    | some op => cases op <;> simp [BinaryOp.symbol, isWordChar, first, second]
  | eval expr =>
    have inner := calm_expr calm expr
    exact .calm (List.forall_mem_singleton.mpr (by simp [isWordChar, inner]))
  | setState point =>
    refine .calm ?_
    cases self with
    | none => simp [instrLines]
    | some id => simp [instrLines, isWordChar, state]
  | suspend => exact .calm (List.forall_mem_singleton.mpr (by simp [isWordChar]))
  | returnUnless condition hint =>
    have inner := calm_expr calm condition
    refine .calm (List.forall_mem_singleton.mpr ?_)
    cases hint with
    | none => simp [isWordChar, inner]
    | some hint => cases hint <;> simp [isWordChar, inner]
  | drive callee =>
    refine .calm ?_
    simp [instrLines, isWordChar, state, step]
  | finish =>
    refine .calm ?_
    cases self with
    | none => simp [instrLines, isWordChar]
    | some id => simp [instrLines, isWordChar, state]
  | returnFrom value =>
    refine .calm ?_
    cases value with
    | none => simp [instrLines, isWordChar]
    | some value =>
      have inner := calm_expr calm value
      simp [instrLines, isWordChar, inner]

/-- The lines of code place its labels and jump to its targets. -/
theorem marked_codeLines (code : Code) :
    Marked (codeLines program names self code) (code.filterMap placedSymbol?)
      (code.targets.map labelSymbol) := by
  induction code with
  | nil => exact .nil
  | cons instr rest ih =>
    have whole := (marked_instrLines symbols calm self instr).append ih
    have placed : (instr :: rest).filterMap placedSymbol? =
        (placedSymbol? instr).toList ++ rest.filterMap placedSymbol? := by
      cases found : placedSymbol? instr <;> simp [found]
    have jumps : (Code.targets (instr :: rest)).map labelSymbol =
        (instr.target?.map labelSymbol).toList ++ (Code.targets rest).map labelSymbol := by
      cases found : instr.target? <;> simp [found]
    rw [placed, jumps]
    exact whole

end Code

/-- A case of a switch jumps. -/
theorem marked_case (word : IsWord name) (number : Nat) :
    Marked ["case " ++ toString number ++ ": goto " ++ name ++ ";"] [] [name] := by
  have digits : wordsFrom [] (toString number).toList = [(toString number).toList] := by
    rw [wordsFrom_word fun c member => isWordChar_digit (isDigit_of_mem_toString member),
      List.nil_append, ended, if_neg (toString_ne_nil number)]
  -- The line is cut at its colon.
  have chars : ("case " ++ toString number ++ ": goto " ++ name ++ ";").toList =
      (['c', 'a', 's', 'e'] ++ ' ' :: (toString number).toList) ++
        ':' :: ' ' :: ("goto " ++ name ++ ";").toList := by simp
  have before : wordsFrom [] (['c', 'a', 's', 'e'] ++ ' ' :: (toString number).toList) =
      [['c', 'a', 's', 'e'], (toString number).toList] := by
    rw [wordsFrom_append (by decide), digits]
    rfl
  have words : wordsFrom [] ("case " ++ toString number ++ ": goto " ++ name ++ ";").toList =
      [['c', 'a', 's', 'e'], (toString number).toList] ++
        [['g', 'o', 't', 'o'], name.toList] := by
    rw [chars, wordsFrom_append (by decide), before, wordsFrom, if_neg (by decide), words_jump word]
    rfl
  have calm : Calm [] (toString number).toList := by simp
  refine .ofWords words ?_ ?_ fun _ => ?_
  · have other := calm.jump
    rw [digits] at other
    simpa using other
  · -- In front of the colon there are two words.
    have cut : ("case " ++ toString number ++ ": goto " ++ name ++ ";").toList.takeWhile
        (· ≠ ':') = ['c', 'a', 's', 'e'] ++ ' ' :: (toString number).toList := by
      rw [chars, List.takeWhile_append_of_pos]
      · simp
      · intro c member
        refine decide_eq_true ?_
        rintro rfl
        exact calm.colon (by simpa using member)
    rw [placed?, cut, before]
    split <;> rfl
  · rw [Has, words]
    simp

theorem marked_default : Marked ["default: break;"] [] [] := by
  refine .single ?_ ?_ ?_ ?_
  · decide +kernel
  · decide +kernel
  · unfold Has
    decide +kernel
  · unfold Has
    decide +kernel

/-- A switch has one case for each point. -/
theorem marked_resumeLines (symbols : ∀ symbol : FileSymbol, Calm [] (symbol.text program).toList)
    (id : CoroutineId) (machine : StateMachine) :
    Marked (resumeLines program id machine) []
      ((List.range machine.points.length).map resumeSymbol) := by
  have state : Calm [] (stateSymbol program id).toList := symbols (.state id)
  rw [resumeLines]
  split
  · rename_i empty
    rw [List.isEmpty_iff.mp empty]
    exact .nil
  · have first : Marked ["switch (" ++ stateSymbol program id ++ ") \x7b"] [] [] :=
      .calm (List.forall_mem_singleton.mpr (by simp [isWordChar, state]))
    have last : Marked ["\x7d"] [] [] :=
      .calm (List.forall_mem_singleton.mpr (by simp [isWordChar]))
    have cases : ∀ points : List Point, Marked (points.map fun point =>
        "case " ++ toString (stateAt point) ++ ": goto " ++ resumeSymbol point ++ ";") []
          (points.map resumeSymbol) := by
      intro points
      induction points with
      | nil => exact .nil
      | cons point rest ih =>
        exact (marked_case (isWord_resumeSymbol point) (stateAt point)).append ih
    simpa using (first.append (cases _)).append (marked_default.append last)

/-! ## Matching -/

/-- What is placed is a label, or a place where a point goes on. -/
theorem mem_placedSymbols :
    name ∈ code.filterMap placedSymbol? ↔ (∃ label ∈ code.labels, labelSymbol label = name) ∨
      ∃ point ∈ Code.points false code, resumeSymbol point = name := by
  simp only [List.mem_filterMap, Code.labels, Code.points]
  constructor
  · rintro ⟨instr, member, told⟩
    cases instr with
    | setLabel label => exact .inl ⟨label, ⟨_, member, rfl⟩, Option.some.inj told⟩
    | resume point => exact .inr ⟨point, ⟨_, member, rfl⟩, Option.some.inj told⟩
    | _ => cases told
  · rintro (⟨label, ⟨instr, member, found⟩, rfl⟩ | ⟨point, ⟨instr, member, found⟩, rfl⟩)
    · cases instr with
      | setLabel other =>
        cases found
        exact ⟨_, member, rfl⟩
      | _ => cases found
    · cases instr with
      | resume other =>
        cases found
        exact ⟨_, member, rfl⟩
      | _ => cases found

/-- No symbol is placed twice if no label and no point is. -/
theorem placedSymbols_nodup (labels : code.labels.Nodup) (points : (Code.points false code).Nodup) :
    (code.filterMap placedSymbol?).Nodup := by
  induction code with
  | nil => exact List.nodup_nil
  | cons instr rest ih =>
    rw [Code.labels_cons] at labels
    rw [Code.points_cons] at points
    have later := ih labels.of_append_right points.of_append_right
    cases instr with
    | setLabel label =>
      refine List.nodup_cons.mpr ⟨fun again => ?_, later⟩
      rcases mem_placedSymbols.mp again with ⟨other, listed, same⟩ | ⟨point, -, same⟩
      · obtain rfl : _ = _ := toString_inj ((String.append_right_inj _).mp same)
        exact (List.nodup_cons.mp labels).1 listed
      · exact labelSymbol_ne_resumeSymbol _ _ same.symm
    | resume point =>
      refine List.nodup_cons.mpr ⟨fun again => ?_, later⟩
      rcases mem_placedSymbols.mp again with ⟨label, -, same⟩ | ⟨other, listed, same⟩
      · exact labelSymbol_ne_resumeSymbol _ _ same
      · obtain rfl : _ = _ := toString_inj ((String.append_right_inj _).mp same)
        exact (List.nodup_cons.mp points).1 listed
    | _ => exact later

/-- The lines of complete code match, if there is one jump to each of its points. -/
theorem Marked.labelsMatch {lines : List String} {count : Nat}
    (marked :
      Marked lines (code.filterMap placedSymbol?) ((List.range count).map resumeSymbol ++
      code.targets.map labelSymbol)) (complete : code.LabelComplete)
    (points : Code.points false code = List.range count) :
    LabelsMatch lines where
  once := by
    rw [marked.placed]
    exact placedSymbols_nodup complete.once (points ▸ List.nodup_range)
  used name := by
    rw [marked.jumped, marked.placed, mem_placedSymbols, points, List.mem_append, List.mem_map,
      List.mem_map, or_comm]
    simp only [complete.used]
  cases := marked.cases
  colons := marked.colons

/-! ## Functions -/

section Functions

variable {model : Model} {program : Program} {owner : Owner} {code : Code}

/-- Local variables have calm names. -/
theorem calm_locals (orderly : model.naming.Orderly IsWord) {body : Body}
    (found : model.body? owner = some body) :
    ∀ known ∈ body.locals, Calm [] known.name.toList := by
  intro known member
  obtain ⟨id, listed⟩ := List.mem_iff_getElem?.mp member
  have declared : model.naming.Declares owner known.name (.localVar id) := by
    simp [Naming.Declares, Model.naming, found, listed]
  obtain ⟨free, word⟩ := (orderly.apart owner).allowed known.name _ declared
  exact calm_of_allowed free word

/-- A function has the marks of its body. -/
theorem marked_definition (head : Calm [] signature.toList) {body placed jumps : List String}
    (marked : Marked body placed jumps) : Marked (definition signature body) placed jumps := by
  have first : Marked [signature, "\x7b"] [] [] := by
    refine .calm (List.forall_mem_cons.mpr ⟨head, ?_⟩)
    simp [isWordChar]
  have last : Marked ["\x7d", ""] [] [] := .calm (by simp [isWordChar])
  simpa [definition] using (first.append marked.indent).append last

variable (orderly : model.naming.Orderly IsWord) (lowered : model.LowersTo program)

include orderly lowered

/-- Jumps and labels belong together in a function of code that is never suspended. -/
theorem definition_labelsMatch (formed : model.WellFormed) (made : program.code? owner = some code)
    (routine : owner.coroutine? = none) {locals declared : List Local}
    (calm : ∀ known ∈ locals, Calm [] known.name.toList)
    (inside : ∀ known ∈ declared, known ∈ locals) (head : Calm [] signature.toList)
    (target : Target) :
    LabelsMatch (definition signature (localLines target declared ++
      codeLines program (.ofLocals program.model locals) none code)) := by
  have names := calmNames orderly lowered calm
  have early := Marked.calm (calm_localLines target fun known member =>
    calm known (inside known member))
  have late := marked_codeLines (calm_symbol orderly lowered) names none code
  -- There is no point to go on with.
  have whole : Marked _ (code.filterMap placedSymbol?)
      ((List.range 0).map resumeSymbol ++ code.targets.map labelSymbol) :=
    marked_definition head (early.append late)
  exact whole.labelsMatch (lowered.labelComplete made)
    (lowered.points_eq_nil formed made routine false)

/-- Jumps and labels belong together in the step function of a coroutine. -/
theorem stepLines_labelsMatch {id : CoroutineId} {machine : StateMachine}
    (found : program.coroutines[id]? = some machine) :
    LabelsMatch (stepLines program id machine) := by
  have symbols := calm_symbol orderly lowered
  have made : program.code? (.coroutine id) = some machine.code :=
    Option.map_eq_some_iff.mpr ⟨machine, found, rfl⟩
  have points : Code.points false machine.code = List.range machine.points.length := by
    rw [lowered.coroutines] at found
    obtain ⟨coroutine, -, rfl⟩ := Option.map_eq_some_iff.mp found
    rw [Model.points_machineOf, Model.length_points_machineOf, List.range_eq_range']
  have head : Calm [] (stepSignature program id).toList :=
    calm_procedureSignature (calm_attributes _ _) (symbols (.step id))
  have first : Marked [stepSignature program id, "\x7b"] [] [] := by
    refine .calm (List.forall_mem_cons.mpr ⟨head, ?_⟩)
    simp [isWordChar]
  have last : Marked ["\x7d", ""] [] [] := .calm (by simp [isWordChar])
  have jumps := marked_resumeLines symbols id machine
  -- The blank line behind the switch is there or not.
  have switch : Marked (if (resumeLines program id machine).isEmpty then []
      else (resumeLines program id machine).map indent ++ [""]) []
      ((List.range machine.points.length).map resumeSymbol) := by
    split
    · rename_i empty
      rwa [List.isEmpty_iff.mp empty] at jumps
    · have blank : Marked [""] [] [] := .calm (by simp)
      simpa using jumps.indent.append blank
  have names : CalmNames (.ofLocals program.model []) := calmNames orderly lowered (by simp)
  have body := (marked_codeLines symbols names (some id) machine.code).indent
  have whole := ((first.append switch).append body).append last
  refine Marked.labelsMatch ?_ (lowered.labelComplete made) points
  simpa [stepLines] using whole

theorem mainLines_labelsMatch (plan : Plan) : LabelsMatch (mainLines program plan) := by
  have marked := Marked.calm (calm_mainLines (calm_symbol orderly lowered) plan)
  exact ⟨by simp [marked.placed], by simp [marked.placed, marked.jumped], marked.cases,
    marked.colons⟩

end Functions

/-- The functions of a generated file, each with its lines. -/
def functionTexts (target : Target) (program : Program) (plan : Plan) : List (List String) :=
  let model := program.model
  (model.functions.zip program.functions).map
    (fun entry => functionLines target program entry.1 entry.2) ++
  (model.hooks.zip program.hooks).zipIdx.map
    (fun entry => procedureLines target program (hookSignature program entry.2) entry.1.1.locals
      entry.1.2) ++
  program.coroutines.zipIdx.map (fun entry => stepLines program entry.2 entry.1) ++
  [procedureLines target program entrySignature model.entry.locals program.entry,
    mainLines program plan]

/-- The functions stand at the end of the file. -/
theorem functionTexts_suffix (target : Target) (program : Program) (plan : Plan) (name : String) :
    (functionTexts target program plan).flatten <:+ fileLines target program plan name := by
  have same : (functionTexts target program plan).flatten =
      definitionLines target program ++ mainLines program plan := by
    simp only [functionTexts, definitionLines, List.flatten_append, List.flatten_cons,
      List.flatten_nil, List.append_nil, List.flatMap, List.append_assoc]
  rw [same, fileLines, List.append_assoc]
  exact List.suffix_append _ _

/-- Jumps and labels belong together in every function of a file. -/
theorem functionTexts_labelsMatch {model : Model} (orderly : model.naming.Orderly IsWord)
    (lowered : model.LowersTo program) (formed : model.WellFormed) (target : Target) (plan : Plan) :
    ∀ lines ∈ functionTexts target program plan, LabelsMatch lines := by
  have symbols := calm_symbol orderly lowered
  have hoisted := lowered.hoisted
  simp only [functionTexts, List.forall_mem_append, List.forall_mem_map, List.forall_mem_cons]
  refine ⟨⟨⟨?_, ?_⟩, ?_⟩, ?_, mainLines_labelsMatch orderly lowered plan, by simp⟩
  · rintro ⟨function, code⟩ member
    obtain ⟨id, listed⟩ := List.mem_iff_getElem?.mp member
    obtain ⟨known, made⟩ := List.getElem?_zip_eq_some.mp listed
    have name : Calm [] function.name.toList := by
      have symbol := symbols (.function id)
      simpa [FileSymbol.text, Names.ofLocals, known] using symbol
    rw [hoisted] at known
    have body : model.body? (.function id) =
        some ⟨function.locals, function.arity, function.body⟩ :=
      Option.map_eq_some_iff.mpr ⟨function, known, rfl⟩
    have calm := calm_locals orderly body
    have made : program.code? (.function id) = some code := made
    exact definition_labelsMatch orderly lowered formed made rfl calm
      (fun _ => List.mem_of_mem_drop) (calm_functionSignature target name calm) target
  · rintro ⟨⟨hook, code⟩, id⟩ member
    obtain ⟨known, made⟩ := List.getElem?_zip_eq_some.mp (List.mem_zipIdx_iff_getElem?.mp member)
    rw [hoisted] at known
    have body : model.body? (.hook id) = some ⟨hook.locals, 0, hook.body⟩ :=
      Option.map_eq_some_iff.mpr ⟨hook, known, rfl⟩
    have made : program.code? (.hook id) = some code := made
    exact definition_labelsMatch orderly lowered formed made rfl (calm_locals orderly body)
      (fun _ member => member)
      (calm_procedureSignature (calm_attributes _ _) (symbols (.hook id))) target
  · rintro ⟨machine, id⟩ member
    exact stepLines_labelsMatch orderly lowered (List.mem_zipIdx_iff_getElem?.mp member)
  · have made : program.code? .entry = some program.entry := rfl
    have body : model.body? .entry = some ⟨program.model.entry.locals, 0, model.entry.body⟩ := by
      rw [hoisted]
      rfl
    have head : Calm [] entrySignature.toList :=
      calm_procedureSignature (fun calm => by simpa using calm) (symbols .entry)
    exact definition_labelsMatch orderly lowered formed made rfl (calm_locals orderly body)
      (fun _ member => member) head target

end Coro.Emit

namespace Coro

/--
Lowered code is complete, and the functions of a generated file are so too.

In all code each label is placed once at most, and the labels that are placed are those jumped to. A
coroutine keeps each of its points once and goes on with it once, further behind, and ends with its
end. In each function of the file, therefore, each jump and each case leads to exactly one label,
and no label is left unused.
-/
theorem Model.lower_completes_labels {model : Model} {program : Program}
    (lowered : model.lower = .ok program) :
    (∀ owner code, program.code? owner = some code → code.LabelComplete) ∧
    (∀ machine ∈ program.coroutines,
      (∀ (point : Point) suspension, machine.points[point]? = some suspension →
        machine.code.SuspendsOnce point suspension.kind) ∧ [.finish] <:+ machine.code) ∧
    ∀ (source : Source) resolved, source.analyze = .ok resolved → resolved.model = model →
      ∀ target plan name,
        (Emit.functionTexts target program plan).flatten <:+
          Emit.fileLines target program plan name ∧
        ∀ lines ∈ Emit.functionTexts target program plan, Emit.LabelsMatch lines := by
  have made := lower_lowersTo lowered
  refine ⟨fun _ _ found => made.labelComplete found, fun _ member => made.suspendsOnce member, ?_⟩
  rintro source resolved analyzed rfl target plan name
  -- The names of a text are words, so that none is taken for a jump.
  have orderly := (Source.analyze_named analyzed).orderly
  obtain ⟨description, -, meant⟩ := Source.analyze_eq_ok.mp analyzed
  obtain ⟨tables, complete, known⟩ := Ast.Description.resolve_tables meant
  have formed := Tables.toModel?_wellFormed complete known
  exact ⟨Emit.functionTexts_suffix target program plan name,
    Emit.functionTexts_labelsMatch orderly made formed target plan⟩

/-- A thread that breaks out of the inner one of two loops, and never out of the outer one. -/
def Source.breaking : Source :=
  .ofText "breaking" "thread t{loop{loop{if 1{break;}yield;}}}main{}"

theorem Source.breaking_lowers : ∃ description resolved program,
    breaking.parse = .ok description ∧ description.resolve = .ok resolved ∧
    resolved.model.lower = .ok program ∧
    (Emit.functionTexts .hosted program .empty).map (List.filterMap Emit.placed?) =
      [["l0", "l2", "l4", "resume_0", "l3"], [], []] :=
  breaking.lowers_of_decide (by decide +kernel)

/-- The labels of the step function are those that it jumps to. -/
theorem Source.breaking_completes : ∃ description resolved program,
    breaking.parse = .ok description ∧ description.resolve = .ok resolved ∧
    resolved.model.lower = .ok program ∧
    ∃ lines ∈ Emit.functionTexts .hosted program .empty,
      lines.filterMap Emit.placed? = ["l0", "l2", "l4", "resume_0", "l3"] ∧
      Emit.LabelsMatch lines := by
  obtain ⟨description, resolved, program, parsed, meant, lowered, placed⟩ := breaking_lowers
  obtain ⟨-, -, functions⟩ := Model.lower_completes_labels lowered
  obtain ⟨-, complete⟩ := functions breaking resolved
    (analyze_eq_ok.mpr ⟨description, parsed, meant⟩) rfl .hosted .empty "breaking"
  obtain ⟨lines, member, told⟩ := List.mem_map.mp (placed ▸ List.mem_cons_self)
  exact ⟨description, resolved, program, parsed, meant, lowered, lines, member, told,
    complete lines member⟩

end Coro
