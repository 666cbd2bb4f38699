import Coro.Parser.Statement

/-!
Contracts of readers of tokens.

A contract says what a reader gives and leaves, from given tokens on. Where it must not fail,
contracts show that tokens of some form are read. Where it may fail, they show that only tokens of
that form are. Each rule is about one reader that others follow, and serves both.
-/

namespace Coro

/-- The tokens still to be read, without their places. -/
def Cursor.ahead (cursor : Cursor) : List Token :=
  cursor.tokens.map Located.value

namespace Parser

variable {α β : Type} {mayFail : Prop} {before : List Token}

/--
From given tokens on, a reader leaves the last of them, related to what it gives; it fails only if
it may.
-/
def Reads (mayFail : Prop) (parser : Parser α) (before : List Token)
    (post : α → List Token → Prop) : Prop :=
  ∀ cursor : Cursor, cursor.ahead = before →
    match parser.run cursor with
    | .ok (value, left) => left.tokens <:+ cursor.tokens ∧ post value left.ahead
    | .error _ => mayFail

namespace Reads

variable {parser : Parser α} {next : α → Parser β} {post : α → List Token → Prop}
  {final : β → List Token → Prop}

/-- A reader that takes nothing. -/
theorem pure {value : α} (holds : post value before) :
    Reads mayFail (pure value) before post := by
  -- Nothing is read, so what holds before holds behind.
  rintro cursor rfl
  exact ⟨List.suffix_rfl, holds⟩

/-- A reader that fails where it may. -/
theorem fail (may : mayFail) (error : ParseError) : Reads mayFail (fail error) before post :=
  fun _ _ => may

/-- Nothing is read behind a failure. -/
theorem failThen (may : mayFail) (error : ParseError) :
    Reads mayFail (Parser.fail error >>= next) before final :=
  fun _ _ => may

/-- The same with a place of its own. -/
theorem throw (may : mayFail) (error : Located ParseError) :
    Reads mayFail (throw error) before post :=
  fun _ _ => may

/-- One reader behind another. -/
theorem bind (first : Reads mayFail parser before post)
    (rest : ∀ value after, post value after → Reads mayFail (next value) after final) :
    Reads mayFail (parser >>= next) before final := by
  intro cursor same
  have read := first cursor same
  rw [StateT.run_bind]
  -- The second reader starts from the tokens that the first has left.
  cases outcome : parser.run cursor with
  | error failure =>
    have may : mayFail := by simpa only [outcome] using read
    exact may
  | ok result =>
    simp only [outcome] at read
    have later := rest result.1 result.2.ahead read.2 result.2 rfl
    change match (next result.1).run result.2 with
      | .ok (value, left) => left.tokens <:+ cursor.tokens ∧ final value left.ahead
      | .error _ => mayFail
    cases finished : (next result.1).run result.2 with
    | error failure => simpa only [finished] using later
    | ok last =>
      simp only [finished] at later ⊢
      exact ⟨later.1.trans read.1, later.2⟩

/-- What follows from what a reader gives and leaves. -/
theorem weaken {weaker : α → List Token → Prop} (reads : Reads mayFail parser before post)
    (follows : ∀ value after, post value after → weaker value after) :
    Reads mayFail parser before weaker := by
  -- Both contracts are about the same run, which fails or succeeds in both.
  intro cursor same
  have read := reads cursor same
  cases outcome : parser.run cursor with
  | error failure => simpa only [outcome] using read
  | ok result =>
    simp only [outcome] at read ⊢
    exact read.imp_right (follows _ _)

/-- What a contract says of a run. -/
theorem of_run {cursor after : Cursor} {value : α} (reads : Reads mayFail parser cursor.ahead post)
    (ran : parser.run cursor = .ok (value, after)) :
    after.tokens <:+ cursor.tokens ∧ post value after.ahead := by
  have read := reads cursor rfl
  rwa [ran] at read

/-- A change of what is read. -/
theorem map {change : α → β}
    (reads : Reads mayFail parser before fun value after => final (change value) after) :
    Reads mayFail (change <$> parser) before final := by
  -- The change is a second reader that reads nothing.
  rw [map_eq_pure_bind]
  exact reads.bind fun value after holds => .pure holds

end Reads

section Steps

variable {final : β → List Token → Prop}

/-- Looking at the next token, if there is one. -/
theorem Reads.peek? {next : Option Token → Parser β}
    (rest : Reads mayFail (next before.head?) before final) :
    Reads mayFail (Parser.peek? >>= next) before final := by
  -- The token stays where it is, for whoever comes next.
  refine bind (?_ : Reads _ _ _ fun value after => value = before.head? ∧ after = before) ?_
  · rintro cursor rfl
    exact ⟨List.suffix_rfl, by simp [Cursor.ahead], rfl⟩
  · rintro _ _ ⟨rfl, rfl⟩
    exact rest

/-- Comparing the next token. -/
theorem Reads.sees {wanted : Token} {next : Bool → Parser β}
    (rest : Reads mayFail (next (before.head? == some wanted)) before final) :
    Reads mayFail (Parser.sees wanted >>= next) before final := by
  -- Comparing is looking, with a test on what is seen.
  rw [Parser.sees, bind_assoc]
  exact Reads.peek? (by simpa only [pure_bind] using rest)

/-- Nothing has to fit where a parser may fail. -/
theorem free {fits : Prop} : True ∨ fits := .inl trivial

/-- Looking at the next token, which must exist. -/
theorem Reads.peek {next : Token → Parser β}
    (rest : ∀ token others, before = token :: others → Reads mayFail (next token) before final)
    (fits : mayFail ∨ before ≠ []) :
    Reads mayFail (Parser.peek >>= next) before final := by
  -- Without tokens the reader fails, and otherwise it leaves all of them.
  refine bind (?_ : Reads _ _ _ fun value after => after = before ∧ before.head? = some value) ?_
  · rintro ⟨tokens, last⟩ rfl
    cases tokens with
    | nil => exact fits.resolve_right (by simp [Cursor.ahead])
    | cons token others => exact ⟨List.suffix_rfl, rfl, rfl⟩
  · rintro token _ ⟨rfl, found⟩
    obtain ⟨others, same⟩ := List.head?_eq_some_iff.mp found
    exact rest token others same

/-- Taking the next token. -/
theorem Reads.next {next : Located Token → Parser β}
    (rest : ∀ token place others, before = token :: others →
      Reads mayFail (next ⟨token, place⟩) others final)
    (fits : mayFail ∨ before ≠ []) :
    Reads mayFail (Parser.next >>= next) before final := by
  -- Without tokens the reader fails, and otherwise it leaves all but the first.
  refine bind (?_ : Reads _ _ _ fun value after => before = value.value :: after) ?_
  · rintro ⟨tokens, last⟩ rfl
    cases tokens with
    | nil => exact fits.resolve_right (by simp [Cursor.ahead])
    | cons token others => exact ⟨List.suffix_cons _ _, rfl⟩
  · rintro ⟨token, place⟩ others same
    exact rest token place others same

/-- Taking a given token. -/
theorem Reads.expect {wanted : Token} {next : Unit → Parser β}
    (rest : ∀ others, before = wanted :: others → Reads mayFail (next ()) others final)
    (fits : mayFail ∨ before.head? = some wanted) :
    Reads mayFail (Parser.expect wanted >>= next) before final := by
  refine bind (?_ : Reads _ _ _ fun _ after => before = wanted :: after)
    fun _ others same => rest others same
  rintro ⟨tokens, last⟩ rfl
  cases tokens with
  | nil => exact fits.resolve_right (by simp [Cursor.ahead])
  | cons found others =>
    -- The token is taken first, and an error comes only behind it.
    have run : (Parser.expect wanted).run ⟨found :: others, last⟩ =
        (if found.value = wanted then Pure.pure ()
          else Parser.fail (.unexpectedToken wanted found.value) : Parser Unit).run
            ⟨others, found.location⟩ := rfl
    by_cases same : found.value = wanted
    · rw [run, if_pos same]
      exact ⟨List.suffix_cons _ _, congrArg (· :: _) same⟩
    · rw [run, if_neg same]
      exact fits.resolve_right (by simpa [Cursor.ahead] using same)

/-- Taking a given mark. -/
theorem Reads.mark {wanted : Punct} {next : Unit → Parser β}
    (rest : ∀ others, before = .punct wanted :: others → Reads mayFail (next ()) others final)
    (fits : mayFail ∨ before.head? = some (.punct wanted)) :
    Reads mayFail (Parser.mark wanted >>= next) before final :=
  Reads.expect rest fits

/-- The place of what was read takes no token. -/
theorem Reads.spanFrom {start : Location} {next : Location → Parser β}
    (rest : ∀ place, Reads mayFail (next place) before final) :
    Reads mayFail (Parser.spanFrom start >>= next) before final := by
  -- Only the last place that was read is looked at.
  refine bind (?_ : Reads _ _ _ fun _ after => after = before) ?_
  · rintro cursor rfl
    exact ⟨List.suffix_rfl, rfl⟩
  · rintro place _ rfl
    exact rest place

/-- Comparing the token after the next one. -/
theorem Reads.seesSecond {wanted : Punct} {next : Bool → Parser β}
    (rest : Reads mayFail (next (before[1]? == some (.punct wanted))) before final) :
    Reads mayFail (Parser.seesSecond wanted >>= next) before final := by
  -- With fewer than two tokens there is none to compare, and the test fails.
  refine bind (?_ : Reads _ _ _ fun value after =>
    value = (before[1]? == some (.punct wanted)) ∧ after = before) ?_
  · rintro ⟨tokens, last⟩ rfl
    cases tokens with
    | nil => exact ⟨List.suffix_rfl, rfl, rfl⟩
    | cons first others =>
      cases others with
      | nil => exact ⟨List.suffix_rfl, rfl, rfl⟩
      | cons second others => exact ⟨List.suffix_rfl, by simp [Cursor.ahead], rfl⟩
  · rintro _ _ ⟨rfl, rfl⟩
    exact rest

/-- Taking an identifier. -/
theorem Reads.identifier {next : Located String → Parser β}
    (rest : ∀ name place others, before = .id name :: others →
      Reads mayFail (next ⟨name, place⟩) others final)
    (fits : mayFail ∨ ∃ name others, before = .id name :: others) :
    Reads mayFail (Parser.identifier >>= next) before final := by
  -- The token is taken in any case, and only then looked at.
  rw [Parser.identifier, bind_assoc]
  refine Reads.next ?_ (fits.imp_right fun ⟨_, _, same⟩ => by simp [same])
  rintro token place others rfl
  cases token with
  | id name => simpa only [pure_bind] using rest name place others rfl
  -- Any other token leads to an error, which must then be allowed.
  | _ => exact .failThen (fits.resolve_right (by simp)) _

/-- Taking the keyword of a type. -/
theorem Reads.type {next : Located IntType → Parser β}
    (rest : ∀ kind place others, before = .keyword (.type kind) :: others →
      Reads mayFail (next ⟨kind, place⟩) others final)
    (fits : mayFail ∨ ∃ kind others, before = .keyword (.type kind) :: others) :
    Reads mayFail (Parser.type >>= next) before final := by
  -- The token is taken in any case, and only then looked at.
  rw [Parser.type, bind_assoc]
  refine Reads.next ?_ (fits.imp_right fun ⟨_, _, same⟩ => by simp [same])
  rintro token place others rfl
  cases token with
  | keyword word =>
    cases word with
    | type kind => simpa only [pure_bind] using rest kind place others rfl
    | _ => exact .failThen (fits.resolve_right (by simp)) _
  | _ => exact .failThen (fits.resolve_right (by simp)) _

/-! ## Steps where the next token is known -/

section Known

variable {token : Token} {others : List Token}

/-- The next token is seen. -/
theorem Reads.peeked {next : Token → Parser β}
    (rest : Reads mayFail (next token) (token :: others) final) :
    Reads mayFail (Parser.peek >>= next) (token :: others) final := by
  refine .peek ?_ (.inr (by simp))
  rintro _ _ ⟨⟩
  exact rest

/-- The next token is taken. -/
theorem Reads.taken {next : Located Token → Parser β}
    (rest : ∀ place, Reads mayFail (next ⟨token, place⟩) others final) :
    Reads mayFail (Parser.next >>= next) (token :: others) final := by
  refine .next ?_ (.inr (by simp))
  rintro _ place _ ⟨⟩
  exact rest place

/-- A mark is taken. -/
theorem Reads.marked {wanted : Punct} {next : Unit → Parser β}
    (rest : Reads mayFail (next ()) others final) :
    Reads mayFail (Parser.mark wanted >>= next) (.punct wanted :: others) final := by
  refine .mark ?_ (.inr (by simp))
  rintro _ ⟨⟩
  exact rest

/-- A name is taken. -/
theorem Reads.named {name : String} {next : Located String → Parser β}
    (rest : ∀ place, Reads mayFail (next ⟨name, place⟩) others final) :
    Reads mayFail (Parser.identifier >>= next) (.id name :: others) final := by
  refine .identifier ?_ (.inr ⟨name, others, rfl⟩)
  rintro _ place _ ⟨⟩
  exact rest place

/-- A type is taken. -/
theorem Reads.typed {kind : IntType} {next : Located IntType → Parser β}
    (rest : ∀ place, Reads mayFail (next ⟨kind, place⟩) others final) :
    Reads mayFail (Parser.type >>= next) (.keyword (.type kind) :: others) final := by
  refine .type ?_ (.inr ⟨kind, others, rfl⟩)
  rintro _ place _ ⟨⟩
  exact rest place

end Known

end Steps

end Parser

end Coro
