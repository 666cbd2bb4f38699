import Mathlib.Tactic.Ring
import Coro.Proofs.Token.Numbers

/-!
Integer literals have their exact value, or there is an error.

The value of a number is the sum of its digits, each by its place. The reader goes from digit to
digit and tests the limit at each, which settles the test of the whole since the value only grows. So
64 bits are enough for all that it computes.
-/

namespace Coro

/-- The value of digits by their places. -/
def positional (radix : Nat) : List Char → Nat
  | [] => 0
  | c :: rest => (digitValue? radix c).getD 0 * radix ^ rest.length + positional radix rest

/-- The value of a number that is well written: hexadecimal behind a mark, else decimal. -/
def numeralValue (run : List Char) : Nat :=
  if run[1]? = some 'x' ∨ run[1]? = some 'X' then positional 16 (run.drop 2) else positional 10 run

/-- A number of a given value is read as it, or refused at one of its digits if it is too large. -/
def Reading.Tells (reading : Reading) (value : Nat) (digits rest : List Char) : Prop :=
  value ≤ literalMax ∧ reading = .accept (.int value) digits rest ∨
  literalMax < value ∧ ∃ taken c more, digits = taken ++ c :: more ∧
    reading = .refuse .intOverflow taken (c :: more ++ rest)

theorem Reading.Tells.push {reading : Reading} {value : Nat} {digits rest : List Char}
    (tells : reading.Tells value digits rest) (c : Char) :
    (reading.push c).Tells value (c :: digits) rest := by
  rcases tells with ⟨fits, rfl⟩ | ⟨large, taken, d, more, rfl, rfl⟩
  · exact .inl ⟨fits, rfl⟩
  · exact .inr ⟨large, c :: taken, d, more, rfl, rfl⟩

/-- Digits behind others add their own value to what those have become. -/
theorem readDigits_tells {radix : Nat} (positive : 0 < radix) {digits rest : List Char}
    (separates : Separates rest) (all : ∀ c ∈ digits, digitValue? radix c ≠ none) {value : Nat}
    (fits : value ≤ literalMax) : (readDigits radix value (digits ++ rest)).Tells
      (value * radix ^ digits.length + positional radix digits) digits rest := by
  -- By induction on the digits, with the value of those that were passed.
  induction digits generalizing value with
  | nil =>
    rw [List.nil_append, readDigits_separates radix value separates]
    exact .inl (by simpa [positional] using fits)
  | cons c digits ih =>
    obtain ⟨here, others⟩ := List.forall_mem_cons.mp all
    obtain ⟨digit, known⟩ := Option.ne_none_iff_exists'.mp here
    have whole : value * radix ^ (c :: digits).length + positional radix (c :: digits) =
        (value * radix + digit) * radix ^ digits.length + positional radix digits := by
      rw [positional, known, Option.getD_some, List.length_cons]
      ring
    rw [whole, List.cons_append, readDigits, known]
    by_cases larger : value * radix + digit ≤ literalMax
    · simp only [if_pos larger]
      exact (ih others larger).push c
    · -- Digits that follow only make the value larger.
      have grows : value * radix + digit ≤ (value * radix + digit) * radix ^ digits.length :=
        Nat.le_mul_of_pos_right _ (Nat.pow_pos positive)
      simp only [if_neg larger]
      exact .inr ⟨by omega, [], c, digits, rfl, rfl⟩

/-- A number that is well written is read as its value. -/
theorem readToken_tells {first : Char} {others rest : List Char}
    (numeral : IsNumeral (first :: others)) (separates : Separates rest) :
    (readToken first (others ++ rest)).Tells (numeralValue (first :: others)) (first :: others)
      rest := by
  rcases numeral with decimal | ⟨mark, digits, same, marks, -, all⟩
  · obtain ⟨digit, more⟩ := List.forall_mem_cons.mp decimal
    have unmarked : ∀ c ∈ others, ¬ (c = 'x' ∨ c = 'X') := by
      rintro c member (rfl | rfl) <;> exact absurd (more _ member) (by decide)
    have value : numeralValue (first :: others) = positional 10 (first :: others) := by
      refine if_neg ?_
      rw [List.getElem?_cons_succ, ← List.head?_eq_getElem?]
      rintro (mark | mark)
      · exact unmarked _ (List.mem_of_mem_head? mark) (.inl rfl)
      · exact unmarked _ (List.mem_of_mem_head? mark) (.inr rfl)
    have all : ∀ c ∈ first :: others, digitValue? 10 c ≠ none := fun c member lacks => by
      have digit := digitValue?_ten.mp lacks
      rw [decimal c member] at digit
      cases digit
    rw [value, readToken, if_neg (by simp [isWordStart_digit digit])]
    by_cases zero : first = '0'
    · -- A zero adds nothing to the digits behind it, and ends the number if there are none.
      subst zero
      have same : positional 10 ('0' :: others) = 0 * 10 ^ others.length + positional 10 others := rfl
      rw [if_pos rfl, same]
      refine Reading.Tells.push ?_ '0'
      cases others with
      | nil =>
        rw [List.nil_append, readAfterZero_separates separates]
        exact .inl ⟨by decide, rfl⟩
      | cons second others =>
        rw [List.cons_append, readAfterZero, if_neg (unmarked _ List.mem_cons_self),
          if_pos (more _ List.mem_cons_self)]
        exact readDigits_tells (by decide) separates (List.forall_mem_cons.mp all).2 (by decide)
    · rw [if_neg zero, if_pos digit]
      have read := readDigits_tells (by decide) separates all (Nat.zero_le literalMax)
      rwa [Nat.zero_mul, Nat.zero_add] at read
  · cases same
    have value : numeralValue ('0' :: mark :: digits) = positional 16 digits :=
      if_pos (by simpa using marks)
    have enters : readToken '0' (mark :: digits ++ rest) =
        ((readDigits 16 0 (digits ++ rest)).push mark).push '0' := by
      rw [readToken, if_neg (by decide), if_pos rfl, List.cons_append, readAfterZero, if_pos marks]
    have read := readDigits_tells (by decide) separates all (Nat.zero_le literalMax)
    rw [Nat.zero_mul, Nat.zero_add] at read
    rw [value, enters]
    exact (read.push mark).push '0'

/-! ## The accumulator -/

/-- A number as one of 64 bits with a sign, if it is one. -/
def checked (number : Int) : Option Int64 :=
  if Int64.minValue.toInt ≤ number ∧ number ≤ Int64.maxValue.toInt then some (Int64.ofInt number)
  else none

theorem checked_eq {number : Nat} (small : number ≤ literalMax * 16 + 15) :
    ∃ word, checked number = some word ∧ word.toInt = number := by
  have bound : (number : Int) ≤ literalMax * 16 + 15 := by exact_mod_cast small
  have above : Int64.maxValue.toInt = 9223372036854775807 := rfl
  have below : Int64.minValue.toInt = -9223372036854775808 := rfl
  simp only [literalMax, Nat.cast_ofNat] at bound
  refine ⟨Int64.ofInt number, if_pos (by omega), Int64.toInt_ofInt_of_le ?_ ?_⟩
  · omega
  · omega

/-- Reads digits with a value of 64 bits; nothing as soon as a product or a sum exceeds them. -/
def readDigitsChecked? (radix : Nat) (value : Int64) : List Char → Option Reading
  | [] => some (.accept (.int value.toInt.toNat) [] [])
  | c :: rest =>
    match digitValue? radix c with
    | some digit => do
      let product ← checked (value.toInt * radix)
      let larger ← checked (product.toInt + digit)
      if larger.toInt ≤ literalMax then return (← readDigitsChecked? radix larger rest).push c
      else return .refuse .intOverflow [] (c :: rest)
    | none =>
      if isWordChar c then some (.refuse (.badChar c) [] (c :: rest))
      else some (.accept (.int value.toInt.toNat) [] (c :: rest))

/-- Digits are read without exceeding 64 bits, whatever text they stand in. -/
theorem readDigitsChecked?_eq {radix : Nat} (small : radix ≤ 16) (text : List Char) {value : Nat}
    (fits : value ≤ literalMax) {word : Int64} (same : word.toInt = value) :
    readDigitsChecked? radix word text = some (readDigits radix value text) := by
  -- By induction on the text: behind each digit the value is within the limit again.
  induction text generalizing value word with
  | nil => rw [readDigitsChecked?, readDigits, same, Int.toNat_natCast]
  | cons c rest ih =>
    rw [readDigitsChecked?, readDigits]
    cases known : digitValue? radix c with
    | none => simp only [same, Int.toNat_natCast, apply_ite some]
    | some digit =>
      have less : digit < radix := by simpa using (Option.filter_eq_some_iff.mp known).2
      have scaled : value * radix ≤ literalMax * 16 := Nat.mul_le_mul fits small
      obtain ⟨product, within, exact⟩ :=
        checked_eq (Nat.le_trans scaled (Nat.le_add_right _ 15))
      obtain ⟨larger, within', exact'⟩ : ∃ larger, checked ((value * radix + digit : Nat) : Int) =
          some larger ∧ larger.toInt = (value * radix + digit : Nat) := checked_eq (by omega)
      rw [Nat.cast_mul] at within
      rw [Nat.cast_add] at within'
      simp only [same, within, exact, within', exact', Option.bind_eq_bind, Option.bind_some,
        Nat.cast_le]
      by_cases limit : value * radix + digit ≤ literalMax
      · simp only [if_pos limit, ih limit exact', Option.bind_some]
        rfl
      · simp only [if_neg limit]
        rfl

namespace Source

/--
A number that is well written is read as its value, or refused if that is larger than a literal.

The error stands at one of the digits. Whatever is read as digits, a value of 64 bits never exceeds
them on the way.
-/
theorem numbers_exact {source : Source} {items : List Lexed} {before run rest : List Char}
    (lexes : source.LexesTo items before (run ++ rest)) (filled : run ≠ [])
    (numeral : IsNumeral run) (separates : Separates rest) :
    (numeralValue run ≤ literalMax →
      source.LexesTo (items ++ [.ok ⟨.int (numeralValue run), ⟨Position.first.advance before,
        Position.first.advance (before ++ run)⟩⟩]) (before ++ run) rest) ∧
    (literalMax < numeralValue run → ∃ taken c more, run = taken ++ c :: more ∧
      source.LexesTo (items ++ [.error ⟨.intOverflow,
          .point (Position.first.advance (before ++ taken))⟩])
        (before ++ taken ++ lineHead (c :: more ++ rest)) (lineRest (c :: more ++ rest))) ∧
    ∀ text, readDigitsChecked? 10 0 text = some (readDigits 10 0 text) ∧
      readDigitsChecked? 16 0 text = some (readDigits 16 0 text) := by
  obtain ⟨first, others, rfl⟩ := List.exists_cons_of_ne_nil filled
  have word : isWordChar first = true := by
    rcases numeral with decimal | ⟨mark, digits, same, -⟩
    · exact isWordChar_digit (decimal first List.mem_cons_self)
    · cases same
      rfl
  have wide : ∀ text, readDigitsChecked? 10 0 text = some (readDigits 10 0 text) ∧
      readDigitsChecked? 16 0 text = some (readDigits 16 0 text) := fun text =>
    ⟨readDigitsChecked?_eq (by decide) text (Nat.zero_le _) rfl,
      readDigitsChecked?_eq (by decide) text (Nat.zero_le _) rfl⟩
  rcases readToken_tells numeral separates with ⟨fits, read⟩ | ⟨large, taken, c, more, same, read⟩
  · exact ⟨fun _ => lexes.token word read, fun large => absurd fits (Nat.not_le.mpr large), wide⟩
  · exact ⟨fun fits => absurd fits (Nat.not_le.mpr large),
      fun _ => ⟨taken, c, more, same, lexes.error word read⟩, wide⟩

/-- Hexadecimal digits with a zero in front, and one more than the largest literal. -/
theorem limits_exact :
    .ok ⟨.int 255, ⟨⟨1, 1⟩, ⟨1, 6⟩⟩⟩ ∈ (ofText "limits" "0x0Ff").lex ∧
      ∃ place, .error ⟨.intOverflow, place⟩ ∈ (ofText "limits" "4294967296").lex := by
  have separates : Separates ['\n'] := by
    rintro _ ⟨⟩
    rfl
  constructor
  · have numeral : IsNumeral ['0', 'x', '0', 'F', 'f'] :=
      .inr ⟨'x', ['0', 'F', 'f'], rfl, .inl rfl, by simp, by simp [digitValue?]⟩
    have lexes : (ofText "limits" "0x0Ff").LexesTo [] [] (['0', 'x', '0', 'F', 'f'] ++ ['\n']) :=
      ⟨rfl, rfl⟩
    have read := (numbers_exact lexes (by simp) numeral separates).1 (by decide)
    rw [read.2]
    exact List.mem_append_left _ List.mem_cons_self
  · have numeral : IsNumeral ['4', '2', '9', '4', '9', '6', '7', '2', '9', '6'] :=
      .inl (by simp)
    have lexes : (ofText "limits" "4294967296").LexesTo [] []
        (['4', '2', '9', '4', '9', '6', '7', '2', '9', '6'] ++ ['\n']) := ⟨rfl, rfl⟩
    obtain ⟨taken, c, more, -, read⟩ :=
      (numbers_exact lexes (by simp) numeral separates).2.1 (by decide)
    exact ⟨_, read.2 ▸ List.mem_append_left _ List.mem_cons_self⟩

end Source

end Coro
