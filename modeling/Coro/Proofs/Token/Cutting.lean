import Coro.Token.Lexer

/-!
Which tokens a text is cut into.

Texts are put together from words, numbers, marks and blanks. Each of them is one token or none,
provided that what follows does not go on with it: a word or a number ends before a character of
neither, and a mark before a character that makes no longer mark of it.
-/

namespace Coro

variable {c first : Char} {digits rest : List Char} {value : Nat} {mark : Punct}

/-- What comes next does not go on with a word or a number. -/
def Separates (rest : List Char) : Prop :=
  ∀ c, rest.head? = some c → isWordChar c = false

/-- The text ahead of some rest is cut into given tokens, wherever it stands. -/
def Cuts (text : List Char) (tokens : List Token) (rest : List Char) : Prop :=
  ∀ position, ∃ (located : List (Located Token)) (stop : Position),
    located.map Located.value = tokens ∧
    lexFrom false position (text ++ rest) = located.map Except.ok ++ lexFrom false stop rest

theorem Cuts.nil (rest : List Char) : Cuts [] [] rest :=
  fun position => ⟨[], position, rfl, rfl⟩

theorem Cuts.append {first second : List Char} {ahead behind : List Token}
    (one : Cuts first ahead (second ++ rest)) (other : Cuts second behind rest) :
    Cuts (first ++ second) (ahead ++ behind) rest := by
  -- The second text starts where the first has ended.
  intro position
  obtain ⟨located, middle, rfl, cut⟩ := one position
  obtain ⟨others, stop, rfl, cut'⟩ := other middle
  refine ⟨located ++ others, stop, by simp, ?_⟩
  rw [List.append_assoc, cut, cut', List.map_append, List.append_assoc]

theorem Cuts.blank (blank : isBlank c) (rest : List Char) : Cuts [c] [] rest := by
  -- A blank is passed over, and only the place moves on.
  intro position
  refine ⟨[], position.after c, rfl, ?_⟩
  rw [List.singleton_append, lexFrom, if_pos blank]
  rfl

/-- What is read as a token is cut into it, unless it starts a comment. -/
theorem Cuts.token {others : List Char} {token : Token} (plain : isBlank first = false)
    (closed : first = '/' → ∀ c, (others ++ rest).head? = some c → c ≠ '/' ∧ c ≠ '*')
    (read : readToken first (others ++ rest) = .accept token (first :: others) rest) :
    Cuts (first :: others) [token] rest := by
  -- The token is the only thing that the lexer can find here.
  intro position
  refine ⟨[⟨token, ⟨position, position.advance (first :: others)⟩⟩],
    position.advance (first :: others), rfl, ?_⟩
  have line : ¬ (first = '/' ∧ (others ++ rest).head? = some '/') :=
    fun ⟨slash, next⟩ => (closed slash _ next).1 rfl
  have block : ¬ (first = '/' ∧ (others ++ rest).head? = some '*') :=
    fun ⟨slash, next⟩ => (closed slash _ next).2 rfl
  rw [List.cons_append, lexFrom, if_neg (by simp [plain]), if_neg line, if_neg block]
  dsimp only
  -- The lexer goes on behind what was read, as the rest is shorter.
  split
  case h_1 found same =>
    rw [read] at same ⊢
    cases same
    rfl
  case h_2 error same =>
    rw [read] at same
    cases same

/-! ## Words -/

/-- A name that is read as one identifier. -/
structure IsIdentifier (name : String) : Prop where
  start : ∃ first others, name.toList = first :: others ∧ isWordStart first = true
  inside : ∀ c ∈ name.toList, isWordChar c = true
  free : Keyword.ofWord? name = none

theorem Separates.takeWhile (separates : Separates rest) :
    rest.takeWhile isWordChar = [] ∧ rest.dropWhile isWordChar = rest := by
  cases rest with
  | nil => exact ⟨rfl, rfl⟩
  | cons c rest => simp [separates c rfl]

/-- A character of a word is no blank and starts no comment. -/
theorem isWordChar_plain (word : isWordChar c = true) : isBlank c = false ∧ c ≠ '/' := by
  -- There are few blanks, and none of them belongs to a word.
  constructor
  · cases blank : isBlank c with
    | false => rfl
    | true =>
      simp only [isBlank, Bool.or_eq_true, beq_iff_eq] at blank
      rcases blank with (((rfl | rfl) | rfl) | rfl) | rfl <;> simp [isWordChar] at word
  · rintro rfl
    simp [isWordChar] at word

/-- An identifier is cut into itself. -/
theorem IsIdentifier.cuts {name : String} (identifier : IsIdentifier name)
    (separates : Separates rest) : Cuts name.toList [.id name] rest := by
  -- Its first character tells that a word is to be read.
  obtain ⟨⟨first, others, same, start⟩, inside, free⟩ := identifier
  obtain ⟨plain, solid⟩ := isWordChar_plain (inside first (by simp [same]))
  rw [same]
  refine .token plain (fun slash => absurd slash solid) ?_
  -- The word goes as far as the name does, and spells no keyword.
  rw [readToken, if_pos start, readWord, ← List.cons_append, ← same,
    List.takeWhile_append_of_pos inside, List.dropWhile_append_of_pos inside,
    separates.takeWhile.1, separates.takeWhile.2, List.append_nil, String.ofList_toList, wordToken,
    free]

/-! ## Numbers -/

theorem le_ofDigitChars (digits : List Char) (value : Nat) :
    value ≤ Nat.ofDigitChars 10 digits value := by
  -- Each digit makes ten times as much of the value before it, and more.
  induction digits generalizing value with
  | nil => exact Nat.le_refl value
  | cons digit digits ih =>
    rw [Nat.ofDigitChars_cons]
    exact Nat.le_trans (by omega) (ih _)

/-- What separates words has no value as a digit. -/
theorem digitValue?_separator (radix : Nat) (separator : isWordChar c = false) :
    digitValue? radix c = none := by
  -- The digits and the letters that count on from them belong to words.
  have digit : ¬ ('0' ≤ c ∧ c ≤ '9') := by
    rintro bounds
    have : c.isDigit = true := by simpa [Char.isDigit, Char.le_def] using bounds
    simp [isWordChar, Char.isAlphanum, this] at separator
  have small : ¬ ('a' ≤ c ∧ c ≤ 'f') := by
    rintro ⟨low, high⟩
    have lower : c.isLower = true := by
      show (decide ('a'.val ≤ c.val) && decide (c.val ≤ 'z'.val)) = true
      simp only [Char.le_def, UInt32.le_iff_toNat_le] at low high ⊢
      simp at low high ⊢
      omega
    have : c.isAlpha = true := Bool.or_eq_true_iff.mpr (.inr lower)
    simp [isWordChar, Char.isAlphanum, this] at separator
  have large : ¬ ('A' ≤ c ∧ c ≤ 'F') := by
    rintro ⟨low, high⟩
    have upper : c.isUpper = true := by
      show decide ('A'.val ≤ c.val ∧ c.val ≤ 'Z'.val) = true
      simp only [Char.le_def, UInt32.le_iff_toNat_le] at low high ⊢
      simp at low high ⊢
      omega
    have : c.isAlpha = true := Bool.or_eq_true_iff.mpr (.inl upper)
    simp [isWordChar, Char.isAlphanum, this] at separator
  unfold digitValue?
  rw [if_neg digit, if_neg small, if_neg large, Option.filter_none]

/-- A number ends before what separates words. -/
theorem readDigits_separates (radix value : Nat) (separates : Separates rest) :
    readDigits radix value rest = .accept (.int value) [] rest := by
  cases rest with
  | nil => rfl
  | cons c rest =>
    have separator := separates c rfl
    rw [readDigits, digitValue?_separator radix separator]
    simp only [separator]
    rfl

/-- Digits are read as their value, if it is no larger than a literal may be. -/
theorem readDigits_decimal (separates : Separates rest) (all : ∀ c ∈ digits, c.isDigit = true)
    (value : Nat) (fits : Nat.ofDigitChars 10 digits value ≤ literalMax) :
    readDigits 10 value (digits ++ rest) =
      .accept (.int (Nat.ofDigitChars 10 digits value)) digits rest := by
  -- By induction on the digits, with the value of those that were passed.
  induction digits generalizing value with
  | nil => exact readDigits_separates 10 value separates
  | cons digit digits ih =>
    rw [List.forall_mem_cons] at all
    rw [Nat.ofDigitChars_cons] at fits ⊢
    -- The same step is written in two ways.
    have larger : value * 10 + (digit.toNat - 48) = 10 * value + (digit.toNat - '0'.toNat) := by
      rw [Nat.mul_comm]
      rfl
    -- Every value on the way fits, since the last one does.
    have below : 10 * value + (digit.toNat - '0'.toNat) ≤ literalMax :=
      Nat.le_trans (le_ofDigitChars digits _) fits
    rw [List.cons_append, readDigits, digitValue?_decimal all.1]
    simp only [larger, if_pos below, ih all.2 _ fits]
    rfl

/-- A digit starts no word. -/
theorem isWordStart_digit (digit : c.isDigit = true) : isWordStart c = false := by
  -- The codes of the digits are a range of their own.
  have bounds : 48 ≤ c.toNat ∧ c.toNat ≤ 57 := by
    simpa [Char.isDigit, UInt32.le_iff_toNat_le] using digit
  cases start : isWordStart c with
  | false => rfl
  | true =>
    -- Letters and the underscore have codes behind those of the digits.
    have start : (decide (c.val ≥ 'A'.val ∧ c.val ≤ 'Z'.val) ||
      (decide (c.val ≥ 'a'.val) && decide (c.val ≤ 'z'.val)) || c == '_') = true := start
    simp only [Bool.or_eq_true, Bool.and_eq_true, decide_eq_true_eq, beq_iff_eq, ge_iff_le,
      UInt32.le_iff_toNat_le] at start
    rcases start with (⟨low, _⟩ | ⟨low, _⟩) | rfl
    · have : 65 ≤ c.toNat := low
      omega
    · have : 97 ≤ c.toNat := low
      omega
    · simp at bounds

theorem isWordChar_digit (digit : c.isDigit = true) : isWordChar c = true := by
  simp [isWordChar, Char.isAlphanum, digit]

theorem readAfterZero_separates (separates : Separates rest) :
    readAfterZero rest = .accept (.int 0) [] rest := by
  cases rest with
  | nil => rfl
  | cons c rest =>
    have separator := separates c rfl
    -- What separates words leads to no hexadecimal number.
    have other : ¬ (c = 'x' ∨ c = 'X') := by
      rintro (rfl | rfl) <;> simp [isWordChar] at separator
    have last : c.isDigit = false := by
      simp only [isWordChar, Char.isAlphanum, Bool.or_eq_false_iff] at separator
      exact separator.1.2
    rw [readAfterZero, if_neg other, if_neg (by simp [last])]

/-- Decimal digits are cut into the number they spell. -/
theorem cuts_digits (separates : Separates rest) (filled : digits ≠ [])
    (all : ∀ c ∈ digits, c.isDigit = true) (fits : Nat.ofDigitChars 10 digits 0 ≤ literalMax) :
    Cuts digits [.int (Nat.ofDigitChars 10 digits 0)] rest := by
  -- The first digit tells that a number is to be read, and in which way.
  obtain ⟨first, others, rfl⟩ := List.exists_cons_of_ne_nil filled
  rw [List.forall_mem_cons] at all
  obtain ⟨plain, solid⟩ := isWordChar_plain (isWordChar_digit all.1)
  refine .token plain (fun slash => absurd slash solid) ?_
  have number := isWordStart_digit all.1
  rw [readToken, if_neg (by simp [number])]
  by_cases zero : first = '0'
  · -- A zero adds nothing to the digits behind it, and ends the number if there are none.
    subst zero
    rw [if_pos rfl]
    rw [Nat.ofDigitChars_cons] at fits ⊢
    cases others with
    | nil =>
      rw [List.nil_append, readAfterZero_separates separates]
      rfl
    | cons second others =>
      obtain ⟨-, more⟩ := all
      have other : ¬ (second = 'x' ∨ second = 'X') := by
        rintro (rfl | rfl) <;> simp at more
      rw [List.cons_append, readAfterZero, if_neg other,
        if_pos (more second List.mem_cons_self), ← List.cons_append,
        readDigits_decimal separates more 0 fits]
      rfl
  · rw [if_neg zero, if_pos all.1]
    exact readDigits_decimal separates (List.forall_mem_cons.mpr all) 0 fits

theorem isDigit_of_mem_toString (member : c ∈ (toString value).toList) : c.isDigit = true := by
  -- Its characters are the digits of its decimal notation.
  rw [Nat.toString_eq_repr, Nat.repr_eq_ofList_toDigits, String.toList_ofList] at member
  exact Nat.isDigit_of_mem_toDigits (by decide) (by decide) member

theorem toString_ne_nil (value : Nat) : (toString value).toList ≠ [] := by
  rw [Nat.toString_eq_repr, Nat.repr_eq_ofList_toDigits, String.toList_ofList]
  exact Nat.toDigits_ne_nil

/-- Writing a number and taking its digits for a value give it back. -/
theorem ofDigitChars_toString (value : Nat) :
    Nat.ofDigitChars 10 (toString value).toList 0 = value := by
  rw [Nat.toString_eq_repr, Nat.repr_eq_ofList_toDigits, String.toList_ofList]
  exact Nat.ofDigitChars_ten_toDigits

/-- Numbers that are written alike are the same. -/
theorem toString_inj {one other : Nat} (same : toString one = toString other) : one = other := by
  rw [← ofDigitChars_toString one, same, ofDigitChars_toString]

/-- A number is cut into itself. -/
theorem cuts_number (fits : value ≤ literalMax) (separates : Separates rest) :
    Cuts (toString value).toList [.int value] rest := by
  have same := ofDigitChars_toString value
  have cuts := cuts_digits separates (toString_ne_nil value)
    (fun c member => isDigit_of_mem_toString member) (by rwa [same])
  rwa [same] at cuts

/-! ## Marks -/

/-- A character starts neither a word nor a literal. -/
def startsMark (c : Char) : Bool :=
  !isBlank c && !isWordStart c && !c.isDigit && c != '\'' && c != '"'

/-- Such a character is read as a mark. -/
theorem readToken_mark (starts : startsMark c = true) (rest : List Char) :
    isBlank c = false ∧ readToken c rest = readPunct c rest := by
  -- All other kinds of tokens are told by their first character.
  simp only [startsMark, Bool.and_eq_true, Bool.not_eq_true', bne_iff_ne] at starts
  obtain ⟨⟨⟨⟨blank, word⟩, digit⟩, quote⟩, double⟩ := starts
  have zero : c ≠ '0' := by
    rintro rfl
    simp at digit
  refine ⟨blank, ?_⟩
  rw [readToken, if_neg (by simp [word]), if_neg zero, if_neg (by simp [digit]), if_neg quote,
    if_neg double]

/-- A mark of one character is cut into itself where no longer mark or comment starts. -/
theorem cuts_mark (starts : startsMark c = true) (single : singlePunct? c = some mark)
    (alone : ∀ next, rest.head? = some next → doublePunct? c next = none ∧
      (c = '/' → next ≠ '/' ∧ next ≠ '*')) : Cuts [c] [.punct mark] rest := by
  -- The longer mark is tried first, and there is none.
  obtain ⟨plain, read⟩ := readToken_mark starts rest
  refine .token plain (fun slash next ahead => (alone next ahead).2 slash) ?_
  have shorter : rest.head?.bind (doublePunct? c) = none := by
    cases ahead : rest.head? with
    | none => rfl
    | some next => exact (alone next ahead).1
  rw [List.nil_append, read, readPunct, shorter, single]

/-- A mark of two characters is cut into itself. -/
theorem cuts_doubleMark {second : Char} (starts : startsMark first = true)
    (double : doublePunct? first second = some mark) (solid : first ≠ '/') (rest : List Char) :
    Cuts [first, second] [.punct mark] rest := by
  -- The longer mark is tried first, so it is the one that is found.
  obtain ⟨plain, read⟩ := readToken_mark starts (second :: rest)
  refine .token plain (fun slash => absurd slash solid) ?_
  rw [List.cons_append, List.nil_append, read, readPunct]
  simp [double]

/-! ## Whole texts -/

/-- A text without line feeds is one line. -/
theorem cutLines_line {text : List Char} (line : '\n' ∉ text) (filled : text ≠ []) :
    cutLines '\n' '\r' [] text = [text] := by
  -- What was passed over is kept in reverse.
  have rest : ∀ before, before ++ text ≠ [] →
      cutLines '\n' '\r' before.reverse text = [before ++ text] := by
    clear filled
    induction text with
    | nil =>
      intro before some
      rw [List.append_nil] at some ⊢
      rw [cutLines, if_neg (by simpa using some), List.reverse_reverse]
    | cons c text ih =>
      intro before _
      rw [List.mem_cons, not_or] at line
      rw [cutLines, if_neg (Ne.symm line.1), ← List.reverse_concat,
        ih line.2 (before ++ [c]) (by simp)]
      simp
  exact rest [] filled

/-- The tokens of a source with one line are those that the line is cut into. -/
theorem Source.tokens_of_cuts (name : String) {text : String} {tokens : List Token}
    (line : '\n' ∉ text.toList) (filled : text.toList ≠ [])
    (cuts : Cuts text.toList tokens ['\n']) :
    ∃ located, (Source.ofText name text).tokens = .ok located ∧
      located.map Located.value = tokens := by
  -- Behind the line stands only its line feed, which is a blank.
  obtain ⟨located, stop, same, cut⟩ := cuts .first
  have chars : (Source.ofText name text).chars = text.toList ++ ['\n'] := by
    simp [Source.ofText, Source.chars, cutLines_line line filled]
  have feed : lexFrom false stop ['\n'] = [] := by
    rw [lexFrom, if_pos (by decide), lexFrom]
    rfl
  have lexed : (Source.ofText name text).lex = located.map Except.ok := by
    rw [feed, List.append_nil] at cut
    rw [Source.lex, chars]
    exact cut
  refine ⟨located, ?_, same⟩
  simp [Source.tokens, lexed, Function.comp_def, Except.toOption]

end Coro
