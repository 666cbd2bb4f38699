import Coro.Proofs.Parser.Words
import Coro.Proofs.Token.Cutting

/-!
Statements of a generated file that call functions and count.

They have a text and an effect: the functions that they call, in order, and the counters that they
leave. The text tells the statements, so a text has one effect only.
-/

namespace Coro

/-! ## Texts that are read in one way -/

/-- Where a part ends that has a property throughout, if what follows starts without it. -/
theorem append_inj_of_all {α : Type} {p : α → Bool} {one other rest rest' : List α}
    (inside : ∀ item ∈ one, p item = true) (inside' : ∀ item ∈ other, p item = true)
    (stops : ∀ item, rest.head? = some item → p item = false)
    (stops' : ∀ item, rest'.head? = some item → p item = false)
    (same : one ++ rest = other ++ rest') : one = other ∧ rest = rest' := by
  -- The longest start with the property is the part itself, on either side.
  have halts : ∀ {rest : List α}, (∀ item, rest.head? = some item → p item = false) →
      rest.takeWhile p = [] := by
    intro rest stops
    cases rest with
    | nil => rfl
    | cons item rest => simp [stops item rfl]
  have taken := congrArg (List.takeWhile p) same
  rw [List.takeWhile_append_of_pos inside, List.takeWhile_append_of_pos inside', halts stops,
    halts stops', List.append_nil, List.append_nil] at taken
  subst taken
  exact ⟨rfl, List.append_cancel_left same⟩

namespace Emit

/-! ## Blocks -/

/-- Statements that call functions and count. -/
inductive Block where
  | done
  /-- A call, `symbol();`. -/
  | call (symbol : String) (rest : Block)
  /-- Starts a counter anew, `counter = 0;`. -/
  | reset (counter : String) (rest : Block)
  /-- Counts, and does more at a limit, `if (++counter == limit)` with a block in braces. -/
  | count (counter : String) (limit : Nat) (inner rest : Block)
deriving Repr, DecidableEq

/-- The values of counters, each of one byte. -/
abbrev Counters := String → UInt8

/-- Gives one counter a value. -/
def Counters.set (counters : Counters) (name : String) (value : UInt8) : Counters :=
  fun other => if other = name then value else counters other

namespace Block

/-- The text of a block, line by line. -/
def lines : Block → List String
  | done => []
  | call symbol rest => (symbol ++ "();") :: rest.lines
  | reset counter rest => (counter ++ " = 0;") :: rest.lines
  | count counter limit inner rest =>
    ("if (++" ++ counter ++ " == " ++ toString limit ++ ") \x7b") ::
      (inner.lines.map indent ++ "\x7d" :: rest.lines)

/-- All names in a block are words. -/
def Worded : Block → Prop
  | done => True
  | call symbol rest => IsWord symbol ∧ rest.Worded
  | reset counter rest => IsWord counter ∧ rest.Worded
  | count counter _ inner rest => IsWord counter ∧ inner.Worded ∧ rest.Worded

/-- The counters that a block counts with. -/
def counters : Block → List String
  | done => []
  | call _ rest => rest.counters
  | reset _ rest => rest.counters
  | count counter _ inner rest => counter :: (inner.counters ++ rest.counters)

/-- The functions that a block calls, in order, and the counters behind it. -/
def run : Block → Counters → List String × Counters
  | done, values => ([], values)
  | call symbol rest, values => (symbol :: (rest.run values).1, (rest.run values).2)
  | reset counter rest, values => rest.run (values.set counter 0)
  | count counter limit inner rest, values =>
    -- The sum wraps in its byte, and is compared as a number.
    let counted := values.set counter (values counter + 1)
    if (values counter + 1).toNat = limit then
      ((inner.run counted).1 ++ (rest.run (inner.run counted).2).1,
        (rest.run (inner.run counted).2).2)
    else rest.run counted

/-- A word in front of a text that ends it can be read off. -/
theorem word_inj {word other : String} (one : IsWord word) (two : IsWord other)
    {rest rest' : String} (first : Separates rest.toList) (second : Separates rest'.toList)
    (same : word ++ rest = other ++ rest') : word = other ∧ rest = rest' := by
  -- All characters of the word belong to words, and the next one does not.
  have chars := congrArg String.toList same
  rw [String.toList_append, String.toList_append] at chars
  obtain ⟨words, rests⟩ := append_inj_of_all one.2 two.2 first second chars
  exact ⟨String.toList_inj.mp words, String.toList_inj.mp rests⟩

/-- A call ends the name that it starts with. -/
theorem separates_call : Separates "();".toList := by
  simp [Separates, isWordChar]

/-- So does an assignment. -/
theorem separates_reset : Separates " = 0;".toList := by
  simp [Separates, isWordChar]

/-- The head of a counting statement tells its counter and its limit. -/
theorem head_inj {one other : String} {limit limit' : Nat} (word : IsWord one)
    (word' : IsWord other)
    (same : "if (++" ++ one ++ " == " ++ toString limit ++ ") \x7b" =
      "if (++" ++ other ++ " == " ++ toString limit' ++ ") \x7b") :
    one = other ∧ limit = limit' := by
  -- The counter is a word, which ends before the blank; what is left are the digits.
  simp only [String.append_assoc, String.append_right_inj] at same
  obtain ⟨counters, rests⟩ := word_inj word word' (by simp [Separates, isWordChar])
    (by simp [Separates, isWordChar]) same
  rw [String.append_right_inj, String.append_left_inj] at rests
  exact ⟨counters, toString_inj rests⟩

/-- Indented lines are equal only if the lines are. -/
theorem indent_injective : Function.Injective indent :=
  fun _ _ same => (String.append_right_inj _).mp same

/-- A line stands inside a block. -/
def indented (line : String) : Bool :=
  line.toList.head? == some '\t'

/-- The lines in braces and those behind them can be told apart. -/
theorem braces_inj {inner inner' rest rest' : List String}
    (same : inner.map indent ++ "\x7d" :: rest = inner'.map indent ++ "\x7d" :: rest') :
    inner = inner' ∧ rest = rest' := by
  -- Lines inside are indented and the brace is not, so the first brace is the one that closes.
  have inside : ∀ lines : List String, ∀ line ∈ lines.map indent, indented line = true := by
    intro lines line member
    obtain ⟨line, -, rfl⟩ := List.mem_map.mp member
    simp [indented, indent]
  have stops : ∀ rest : List String, ∀ line, ("\x7d" :: rest).head? = some line →
      indented line = false := by
    rintro rest _ ⟨⟩
    decide
  obtain ⟨lines, rests⟩ := append_inj_of_all (inside inner) (inside inner') (stops rest)
    (stops rest') same
  exact ⟨indent_injective.list_map lines, (List.cons.inj rests).2⟩

/-- The head of a counting statement starts with a word too. -/
theorem head_eq (counter : String) (limit : Nat) :
    "if (++" ++ counter ++ " == " ++ toString limit ++ ") \x7b" =
      "if" ++ (" (++" ++ counter ++ " == " ++ toString limit ++ ") \x7b") := by
  simp only [← String.append_assoc]
  rfl

/-- That word is a keyword. -/
theorem isWord_if : IsWord "if" :=
  ⟨by simp, by simp [isWordChar]⟩

section Apart

variable {name counter : String} {limit : Nat}

/-- A call is no counting statement, by the character behind its name. -/
theorem call_ne_count (word : IsWord name) :
    name ++ "();" ≠ "if (++" ++ counter ++ " == " ++ toString limit ++ ") \x7b" := by
  intro same
  rw [head_eq] at same
  have rests := (word_inj word isWord_if separates_call (by simp [Separates, isWordChar]) same).2
  have chars := congrArg (fun text => text.toList.head?) rests
  simp at chars

/-- An assignment is no counting statement, by the second one. -/
theorem reset_ne_count (word : IsWord name) :
    name ++ " = 0;" ≠ "if (++" ++ counter ++ " == " ++ toString limit ++ ") \x7b" := by
  intro same
  rw [head_eq] at same
  have rests := (word_inj word isWord_if separates_reset (by simp [Separates, isWordChar]) same).2
  have chars := congrArg (fun text => text.toList[1]?) rests
  simp at chars

/-- A call is no assignment. -/
theorem call_ne_reset (word : IsWord name) (word' : IsWord counter) :
    name ++ "();" ≠ counter ++ " = 0;" := by
  intro same
  have rests := (word_inj word word' separates_call separates_reset same).2
  simp at rests

end Apart

/-- A text is that of one block only. -/
theorem lines_inj {one other : Block} (word : one.Worded) (word' : other.Worded)
    (same : one.lines = other.lines) : one = other := by
  -- The first line of a statement tells which it is, and what the names in it are.
  induction one generalizing other with
  | done => cases other <;> simp [lines] at same ⊢
  | call symbol rest ih =>
    cases other with
    | done => simp [lines] at same
    | call symbol' rest' =>
      obtain ⟨first, later⟩ := List.cons.inj same
      rw [String.append_left_inj] at first
      rw [first, ih word.2 word'.2 later]
    | reset counter rest' => exact (call_ne_reset word.1 word'.1 (List.cons.inj same).1).elim
    | count counter limit inner rest' => exact (call_ne_count word.1 (List.cons.inj same).1).elim
  | reset counter rest ih =>
    cases other with
    | done => simp [lines] at same
    | call symbol rest' => exact (call_ne_reset word'.1 word.1 (List.cons.inj same).1.symm).elim
    | reset counter' rest' =>
      obtain ⟨first, later⟩ := List.cons.inj same
      rw [String.append_left_inj] at first
      rw [first, ih word.2 word'.2 later]
    | count counter limit inner rest' => exact (reset_ne_count word.1 (List.cons.inj same).1).elim
  | count counter limit inner rest ihInner ihRest =>
    cases other with
    | done => simp [lines] at same
    | call symbol rest' => exact (call_ne_count word'.1 (List.cons.inj same).1.symm).elim
    | reset counter rest' => exact (reset_ne_count word'.1 (List.cons.inj same).1.symm).elim
    | count counter' limit' inner' rest' =>
      obtain ⟨first, later⟩ := List.cons.inj same
      obtain ⟨rfl, rfl⟩ := head_inj word.1 word'.1 first
      obtain ⟨inside, behind⟩ := braces_inj later
      rw [ihInner word.2.1 word'.2.1 inside, ihRest word.2.2 word'.2.2 behind]

/-! ### Calls in sequence -/

/-- Calls ahead of a block. -/
def calls (symbols : List String) (rest : Block) : Block :=
  symbols.foldr call rest

end Block

end Emit

end Coro
