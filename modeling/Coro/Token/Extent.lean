import Coro.Token.Reading

/-!
How far a reader of tokens goes.

A reader takes characters from the head of a text, never a line feed, and looks at no more than the
one behind them. Where it gives a token, a line feed there would do as well.
-/

namespace Coro

/-- A name is a word: it has characters, and all of them belong to words. -/
def IsWord (name : String) : Prop :=
  name.toList ≠ [] ∧ ∀ c ∈ name.toList, isWordChar c = true

/-- An identifier is a word. -/
def Token.Worded (token : Token) : Prop :=
  ∀ name, token = .id name → IsWord name

/-- The same reading where more text follows. -/
def Reading.behind (reading : Reading) (more : List Char) : Reading :=
  { reading with rest := reading.rest ++ more }

/-- What may stand behind a lexeme in place of what does. -/
def MayFollow : Except LexError Token → List Char → List Char → Prop
  | .ok _, rest, other => ∀ c ∈ other.head?, c = '\n' ∨ c ∈ rest.head?
  | .error _, rest, other => other.head? = rest.head?

/-- What follows may follow. -/
theorem MayFollow.refl (outcome : Except LexError Token) (rest : List Char) :
    MayFollow outcome rest rest := by
  cases outcome with
  | ok token => exact fun c member => .inr member
  | error failure => rfl

/-- From a text, a reader takes a part of a line, and heeds no more than what may follow it. -/
def Heeds (read : List Char → Reading) (text : List Char) : Prop :=
  ∃ outcome taken rest, text = taken ++ rest ∧ '\n' ∉ taken ∧
    (∀ token, outcome = .ok token → token.Worded) ∧
    ∀ other, MayFollow outcome rest other → read (taken ++ other) = ⟨outcome, taken, other⟩

namespace Heeds

variable {read : List Char → Reading} {text : List Char}

section Heeding

variable (heeds : Heeds read text)

include heeds

/-- The lexeme and the rest are the text. -/
theorem split : (read text).lexeme ++ (read text).rest = text := by
  obtain ⟨outcome, taken, rest, rfl, -, -, same⟩ := heeds
  rw [same rest (.refl _ _)]

/-- A lexeme lies in one line. -/
theorem lexeme : '\n' ∉ (read text).lexeme := by
  obtain ⟨outcome, taken, rest, rfl, inside, -, same⟩ := heeds
  rwa [same rest (.refl _ _)]

/-- An identifier that is read is a word. -/
theorem worded {token : Token} (accepted : (read text).outcome = .ok token) : token.Worded := by
  obtain ⟨outcome, taken, rest, rfl, -, worded, same⟩ := heeds
  rw [same rest (.refl _ _)] at accepted
  exact worded token accepted

/-- What stands behind a line feed makes no difference. -/
theorem append (feed : '\n' ∈ text) (more : List Char) :
    read (text ++ more) = (read text).behind more := by
  obtain ⟨outcome, taken, rest, rfl, inside, -, same⟩ := heeds
  rw [same rest (.refl _ _), List.append_assoc]
  -- The line feed is still to come, so that there is a character behind the lexeme.
  cases rest with
  | nil => exact absurd (by simpa using feed) inside
  | cons c rest =>
    refine same _ ?_
    cases outcome with
    | ok token => exact fun _ member => .inr member
    | error failure => rfl

/-- A lexeme is read in the same way where it stands alone in its line. -/
theorem alone {token : Token} (accepted : (read text).outcome = .ok token) :
    read ((read text).lexeme ++ ['\n']) = .accept token (read text).lexeme ['\n'] := by
  obtain ⟨outcome, taken, rest, rfl, -, -, same⟩ := heeds
  rw [same rest (.refl _ _)] at accepted ⊢
  obtain rfl : outcome = .ok token := accepted
  exact same ['\n'] fun c member => .inl (by simpa using member.symm)

end Heeding

/-- A reader that takes nothing, with a token. -/
theorem accept (token : Token) (worded : token.Worded)
    (same : ∀ other : List Char, (∀ c ∈ other.head?, c = '\n' ∨ c ∈ text.head?) →
      read other = .accept token [] other) : Heeds read text :=
  ⟨.ok token, [], text, rfl, by simp, by rintro _ ⟨⟩; exact worded, same⟩

/-- A reader that refuses the end of the text. -/
theorem ended (error : LexError) (same : read [] = .refuse error [] []) : Heeds read [] := by
  refine ⟨.error error, [], [], rfl, by simp, by simp, fun other ends => ?_⟩
  obtain rfl : other = [] := by simpa [MayFollow] using ends
  exact same

/-- A reader that refuses the next character. -/
theorem refuse {c : Char} {rest : List Char} (error : LexError)
    (same : ∀ others, read (c :: others) = .refuse error [] (c :: others)) :
    Heeds read (c :: rest) := by
  refine ⟨.error error, [], c :: rest, rfl, by simp, by simp, fun other follows => ?_⟩
  obtain ⟨others, rfl⟩ := List.head?_eq_some_iff.mp (show other.head? = some c from follows)
  exact same others

/-- The next character is taken, and then more by another reader. -/
theorem push {next : List Char → Reading} {c : Char} (heeds : Heeds next text)
    (inside : '\n' ≠ c) (same : ∀ rest, read (c :: rest) = (next rest).push c) :
    Heeds read (c :: text) := by
  obtain ⟨outcome, taken, rest, rfl, none, worded, reads⟩ := heeds
  refine ⟨outcome, c :: taken, rest, rfl, by simp [inside, none], worded, fun other follows => ?_⟩
  rw [List.cons_append, same, reads other follows]
  rfl

end Heeds

/-! ## Numbers -/

/-- A line feed is no digit. -/
theorem feed_ne_digit {radix digit : Nat} {c : Char} (value : digitValue? radix c = some digit) :
    '\n' ≠ c := by
  rintro rfl
  simp [digitValue?] at value

/-- Digits end at the first character that is none. -/
theorem readDigits_heeds (radix value : Nat) (text : List Char) :
    Heeds (readDigits radix value) text := by
  have feed : digitValue? radix '\n' = none := by simp [digitValue?]
  -- Digit by digit, each with the value of those before it.
  induction text generalizing value with
  | nil =>
    refine .accept (.int value) (by simp [Token.Worded]) fun other stops => ?_
    cases other with
    | nil => rfl
    | cons c others =>
      obtain rfl : c = '\n' := by simpa using stops
      simp [readDigits, feed, isWordChar]
  | cons c rest ih =>
    cases known : digitValue? radix c with
    | some digit =>
      by_cases fits : value * radix + digit ≤ literalMax
      · exact (ih (value * radix + digit)).push (feed_ne_digit known) fun rest => by
          simp [readDigits, known, fits]
      · exact .refuse .intOverflow fun others => by simp [readDigits, known, fits]
    | none =>
      by_cases word : isWordChar c
      · exact .refuse (.badChar c) fun others => by simp [readDigits, known, word]
      · refine .accept (.int value) (by simp [Token.Worded]) fun other stops => ?_
        cases other with
        | nil => rfl
        | cons d others =>
          obtain rfl | rfl : d = '\n' ∨ c = d := by simpa using stops
          · simp [readDigits, feed, isWordChar]
          · simp [readDigits, known, word]

/-- A decimal digit has a value in base ten. -/
theorem digitValue?_decimal {c : Char} (digit : c.isDigit) :
    digitValue? 10 c = some (c.toNat - 48) := by
  -- Between the ends of the range, the distance from zero is below ten.
  have bounds : 48 ≤ c.toNat ∧ c.toNat ≤ 57 := by
    simpa [Char.isDigit, UInt32.le_iff_toNat_le] using digit
  have low : '0' ≤ c := by simpa [Char.le_def, UInt32.le_iff_toNat_le] using bounds.1
  have high : c ≤ '9' := by simpa [Char.le_def, UInt32.le_iff_toNat_le] using bounds.2
  have small : c.toNat - 48 < 10 := by omega
  simp [digitValue?, low, high, Option.filter_some, small]

/-- The first digit of a decimal number is always taken. -/
theorem readDigits_decimal_cons {c : Char} (digit : c.isDigit) (rest : List Char) :
    readDigits 10 0 (c :: rest) = (readDigits 10 (c.toNat - 48) rest).push c := by
  have small : c.toNat - 48 < 10 := by
    simpa using (Option.mem_filter_iff.mp (digitValue?_decimal digit)).2
  have fits : c.toNat - 48 ≤ literalMax := by
    rw [literalMax]
    omega
  simp [readDigits, digitValue?_decimal digit, fits]

/-- A zero may be a number or start a longer one. -/
theorem readAfterZero_heeds (text : List Char) : Heeds readAfterZero text := by
  -- A letter or a digit leads to digits, and anything else ends the number.
  cases text with
  | nil =>
    refine .accept (.int 0) (by simp [Token.Worded]) fun other stops => ?_
    cases other with
    | nil => rfl
    | cons c others =>
      obtain rfl : c = '\n' := by simpa using stops
      rfl
  | cons c rest =>
    by_cases letter : c = 'x' ∨ c = 'X'
    · refine (readDigits_heeds 16 0 rest).push ?_ fun rest => by simp [readAfterZero, letter]
      rcases letter with rfl | rfl <;> decide
    · by_cases digit : c.isDigit
      · refine (readDigits_heeds 10 (c.toNat - 48) rest).push
          (feed_ne_digit (digitValue?_decimal digit)) fun rest => ?_
        rw [readAfterZero, if_neg letter, if_pos digit, readDigits_decimal_cons digit]
      · refine .accept (.int 0) (by simp [Token.Worded]) fun other stops => ?_
        cases other with
        | nil => rfl
        | cons d others =>
          obtain rfl | rfl : d = '\n' ∨ c = d := by simpa using stops
          · rfl
          · simp [readAfterZero, letter, digit]

/-! ## Literals -/

/-- A character literal ends with its quote. -/
theorem readCharClose_heeds (byte : UInt8) (text : List Char) :
    Heeds (readCharClose byte) text := by
  cases text with
  | nil => exact .ended (.expected '\'') rfl
  | cons c rest =>
    by_cases quote : c = '\''
    · subst quote
      exact ⟨.ok (.char byte), ['\''], rest, rfl, by decide, by simp [Token.Worded],
        fun other _ => rfl⟩
    · exact .refuse _ fun others => if_neg quote

/-- An escape is one character. -/
theorem readCharEscape_heeds (text : List Char) : Heeds readCharEscape text := by
  cases text with
  | nil => exact .ended .badCharLiteral rfl
  | cons c rest =>
    cases known : escapeByte? c with
    | some byte =>
      refine (readCharClose_heeds byte rest).push ?_ fun rest => by simp [readCharEscape, known]
      rintro rfl
      simp [escapeByte?] at known
    | none => exact .refuse .badCharLiteral fun others => by simp [readCharEscape, known]

/-- A character literal has one character or an escape. -/
theorem readCharOpen_heeds (text : List Char) : Heeds readCharOpen text := by
  cases text with
  | nil => exact .ended .badCharLiteral rfl
  | cons c rest =>
    by_cases backslash : c = '\\'
    · exact (readCharEscape_heeds rest).push (by simp [backslash]) fun rest => by
        simp [readCharOpen, backslash]
    · by_cases plain : c.toNat < 128 ∧ c ≠ '\'' ∧ c ≠ '\n'
      · exact (readCharClose_heeds (.ofNat c.toNat) rest).push plain.2.2.symm fun rest => by
          simp [readCharOpen, backslash, plain]
      · exact .refuse _ fun others => by rw [readCharOpen, if_neg backslash, if_neg plain]

/-! ## Words and marks -/

/-- A longest start ends where it did, before anything that stops it. -/
theorem span_takeWhile {p : Char → Bool} (text other : List Char)
    (stops : ∀ c ∈ other.head?, p c = false) :
    (text.takeWhile p ++ other).takeWhile p = text.takeWhile p ∧
      (text.takeWhile p ++ other).dropWhile p = other := by
  induction text with
  | nil => cases other <;> simp_all
  | cons c rest ih => cases kind : p c <;> cases other <;> simp_all

/-- A string ends with its quote, in its line. -/
theorem readStringOpen_heeds (text : List Char) : Heeds readStringOpen text := by
  -- The text is cut before the first quote or line feed, whatever follows it.
  have body : '\n' ∉ text.takeWhile fun c => c != '"' && c != '\n' := fun member =>
    absurd (List.all_eq_true.mp List.all_takeWhile _ member) (by decide)
  have whole := List.takeWhile_append_dropWhile (p := fun c => c != '"' && c != '\n') (l := text)
  cases ended : text.dropWhile fun c => c != '"' && c != '\n' with
  | nil =>
    rw [ended] at whole
    refine ⟨.error .unterminatedString, _, [], whole.symm, body, by simp, fun other ends => ?_⟩
    obtain rfl : other = [] := by simpa [MayFollow] using ends
    obtain ⟨taken, dropped⟩ := span_takeWhile (p := fun c => c != '"' && c != '\n') text []
      (by simp)
    simp only [readStringOpen, taken, dropped, Reading.refuse]
  | cons c rest =>
    rw [ended] at whole
    have outside : (fun c => c != '"' && c != '\n') c = false :=
      by simpa [ended] using List.head?_dropWhile_not (fun c => c != '"' && c != '\n') text
    have cut (others : List Char) := span_takeWhile (p := fun c => c != '"' && c != '\n') text
      (c :: others) (by rintro _ ⟨⟩; exact outside)
    by_cases quote : c = '"'
    · subst quote
      refine ⟨.ok (.str (.ofList (text.takeWhile fun c => c != '"' && c != '\n'))),
        text.takeWhile _ ++ ['"'], rest, by rw [List.append_assoc]; exact whole.symm,
        by simpa using body, by simp [Token.Worded], fun other _ => ?_⟩
      rw [List.append_assoc]
      simp only [List.singleton_append, readStringOpen, cut other, if_true, Reading.accept]
    · refine ⟨.error .unterminatedString, _, c :: rest, whole.symm, body, by simp,
        fun other follows => ?_⟩
      obtain ⟨others, rfl⟩ := List.head?_eq_some_iff.mp (show other.head? = some c from follows)
      simp only [readStringOpen, cut others, if_neg quote, Reading.refuse]

/-- What starts a word belongs to it. -/
theorem isWordChar_of_start {c : Char} (start : isWordStart c) : isWordChar c := by
  simp only [isWordStart, isWordChar, Char.isAlphanum, Bool.or_eq_true] at start ⊢
  exact start.imp .inl id

/-- The longest start of word characters is a word. -/
theorem isWord_takeWhile {first : Char} (start : isWordStart first) (rest : List Char) :
    IsWord (String.ofList ((first :: rest).takeWhile isWordChar)) := by
  refine ⟨by simp [isWordChar_of_start start], fun c found => ?_⟩
  rw [String.toList_ofList] at found
  exact List.all_eq_true.mp List.all_takeWhile c found

/-- A word ends before the first character that belongs to none. -/
theorem readWord_heeds {read : List Char → Reading} {first : Char} (start : isWordStart first)
    (same : ∀ others, read (first :: others) = readWord (first :: others)) (rest : List Char) :
    Heeds read (first :: rest) := by
  have word := isWordChar_of_start start
  refine ⟨.ok (wordToken (.ofList ((first :: rest).takeWhile isWordChar))), _,
    (first :: rest).dropWhile isWordChar, List.takeWhile_append_dropWhile.symm,
    fun feed => absurd (List.all_eq_true.mp List.all_takeWhile _ feed) (by decide), ?_,
    fun other follows => ?_⟩
  · rintro token ⟨⟩ name same
    -- A word that spells no keyword is the identifier itself.
    unfold wordToken at same
    split at same <;> cases same
    exact isWord_takeWhile start rest
  · obtain ⟨taken, dropped⟩ := span_takeWhile (p := isWordChar) (first :: rest) other
      fun c member => (follows c member).elim (by rintro rfl; decide) fun next => by
        simpa [Option.mem_def.mp next] using List.head?_dropWhile_not isWordChar (first :: rest)
    rw [List.takeWhile_cons_of_pos word] at taken dropped ⊢
    rw [List.cons_append] at taken dropped ⊢
    simp only [same, readWord, taken, dropped, Reading.accept]

/-- No mark has a line feed in it. -/
theorem doublePunct?_feed (first : Char) : doublePunct? first '\n' = none := by
  unfold doublePunct?
  split <;> simp_all

/-- A mark of two characters starts with a mark. -/
theorem doublePunct?_of_single {first : Char} (none : singlePunct? first = none) (second : Char) :
    doublePunct? first second = Option.none := by
  unfold doublePunct?
  split <;> first | rfl | exact absurd none (by decide)

/-- A mark has two characters where the second fits. -/
theorem readPunct_heeds {read : List Char → Reading} {first : Char}
    (same : ∀ others, read (first :: others) = readPunct first others) (rest : List Char) :
    Heeds read (first :: rest) := by
  -- Only the second character is looked at, and a line feed fits nowhere.
  cases single : singlePunct? first with
  | none =>
    refine .refuse (.badChar first) fun others => ?_
    have double : others.head?.bind (doublePunct? first) = none := by
      cases others <;> simp [doublePunct?_of_single single]
    simp [same, readPunct, double, single]
  | some mark =>
    have inside : '\n' ≠ first := by
      rintro rfl
      simp [singlePunct?] at single
    cases double : rest.head?.bind (doublePunct? first) with
    | none =>
      refine ⟨.ok (.punct mark), [first], rest, rfl, by simpa using inside,
        by simp [Token.Worded], fun other follows => ?_⟩
      have short : other.head?.bind (doublePunct? first) = none := by
        cases next : other.head? with
        | none => rfl
        | some c =>
          rcases follows c next with rfl | also
          · exact doublePunct?_feed first
          · rwa [also] at double
      simp [same, readPunct, short, single, Reading.accept]
    | some longer =>
      obtain ⟨second, ahead, known⟩ := Option.bind_eq_some_iff.mp double
      obtain ⟨others, rfl⟩ := List.head?_eq_some_iff.mp ahead
      have other : '\n' ≠ second := by
        rintro rfl
        simp [doublePunct?_feed] at known
      exact ⟨.ok (.punct longer), [first, second], others, rfl, by simp [inside, other],
        by simp [Token.Worded], fun other _ => by simp [same, readPunct, known, Reading.accept]⟩

/-! ## Tokens -/

/-- The first character alone decides which reader goes on. -/
theorem readToken_heeds (first : Char) (rest : List Char) :
    Heeds (fun text => readToken (text.headD '\n') text.tail) (first :: rest) := by
  by_cases start : isWordStart first
  · exact readWord_heeds start (fun _ => if_pos start) rest
  · by_cases zero : first = '0'
    · exact (readAfterZero_heeds rest).push (by simp [zero]) fun rest =>
        (if_neg start).trans (if_pos zero)
    · by_cases digit : first.isDigit
      · refine (readDigits_heeds 10 (first.toNat - 48) rest).push
          (feed_ne_digit (digitValue?_decimal digit)) fun rest => ?_
        simp [readToken, start, zero, digit, readDigits_decimal_cons]
      · by_cases quote : first = '\''
        · exact (readCharOpen_heeds rest).push (by simp [quote]) fun rest => by
            show readToken first rest = _
            rw [readToken, if_neg start, if_neg zero, if_neg digit, if_pos quote]
        · by_cases double : first = '"'
          · exact (readStringOpen_heeds rest).push (by simp [double]) fun rest => by
              show readToken first rest = _
              rw [readToken, if_neg start, if_neg zero, if_neg digit, if_neg quote, if_pos double]
          · exact readPunct_heeds (fun others => by
              simp [readToken, start, zero, digit, quote, double]) rest

section Tokens

variable {first : Char} {rest : List Char} {token : Token}

/-- A lexeme and the rest are the text. -/
theorem readToken_split (first : Char) (rest : List Char) :
    (readToken first rest).lexeme ++ (readToken first rest).rest = first :: rest :=
  (readToken_heeds first rest).split

/-- No token goes beyond its line. -/
theorem readToken_lexeme (first : Char) (rest : List Char) : '\n' ∉ (readToken first rest).lexeme :=
  (readToken_heeds first rest).lexeme

/-- Text behind a line feed changes no token before it. -/
theorem readToken_append (feed : '\n' ∈ rest) (more : List Char) :
    readToken first (rest ++ more) = (readToken first rest).behind more :=
  (readToken_heeds first rest).append (List.mem_cons_of_mem first feed) more

/-- A token takes at least one character. -/
theorem readToken_lexeme_ne_nil (read : (readToken first rest).outcome = .ok token) :
    (readToken first rest).lexeme ≠ [] := by
  -- Otherwise there would be a token at a line feed.
  intro empty
  have alone := (readToken_heeds first rest).alone read
  simp only [List.headD_cons, List.tail_cons, empty] at alone
  have accepted : (readToken '\n' []).outcome.isOk = true :=
    congrArg (fun reading => reading.outcome.isOk) alone
  exact absurd accepted (by decide)

/-- The lexeme of a token starts with its first character and is read alone in the same way. -/
theorem readToken_alone (read : (readToken first rest).outcome = .ok token) :
    ∃ others, (readToken first rest).lexeme = first :: others ∧
      readToken first (others ++ ['\n']) = .accept token (first :: others) ['\n'] := by
  obtain ⟨c, others, same⟩ := List.exists_cons_of_ne_nil (readToken_lexeme_ne_nil read)
  have whole := readToken_split first rest
  rw [same, List.cons_append] at whole
  obtain rfl := (List.cons.inj whole).1
  have alone := (readToken_heeds c rest).alone read
  simp only [List.headD_cons, List.tail_cons, same] at alone
  exact ⟨others, same, alone⟩

end Tokens

end Coro
