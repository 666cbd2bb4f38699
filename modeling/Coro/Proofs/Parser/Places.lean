import Coro.Parser.Expr
import Coro.Proofs.Resolution.Body

/-!
Where expressions stand.

An expression stands from the start of one of its tokens to the end of the same or a later one, and
so does each expression inside it. Parentheses around an expression do not belong to it.
-/

namespace Coro

namespace Ast

mutual

/-- An expression and all expressions inside it. -/
def Expr.parts : Expr → List Expr
  | .int value location => [.int value location]
  | .char byte location => [.char byte location]
  | .name written => [.name written]
  | .element array index location => .element array index location :: index.parts
  | .call function args location => .call function args location :: Expr.partsAll args
  | .unary op operand location => .unary op operand location :: operand.parts
  | .binary op left right location =>
    .binary op left right location :: (left.parts ++ right.parts)

/-- All expressions inside a list of them. -/
def Expr.partsAll : List Expr → List Expr
  | [] => []
  | first :: rest => first.parts ++ Expr.partsAll rest

end

end Ast

/-- A place from the start of a token to the end of the same or a later one. -/
def Spans (tokens : List (Located Token)) (place : Location) : Prop :=
  ∃ first last, (first = last ∧ first ∈ tokens ∨ [first, last].Sublist tokens) ∧
    place = .span first.location last.location

namespace Spans

variable {tokens more : List (Located Token)} {place other : Location}

/-- A token spans its own place. -/
theorem token {token : Located Token} (member : token ∈ tokens) : Spans tokens token.location :=
  ⟨token, token, .inl ⟨rfl, member⟩, rfl⟩

/-- More tokens span what fewer do. -/
theorem mono (spans : Spans tokens place) (within : tokens.Sublist more) : Spans more place := by
  obtain ⟨first, last, order, rfl⟩ := spans
  exact ⟨first, last, order.imp (And.imp_right (within.subset ·)) (·.trans within), rfl⟩

/-- What is spanned reaches from a token to a token. -/
theorem ends (spans : Spans tokens place) : ∃ first ∈ tokens, ∃ last ∈ tokens,
    place = .span first.location last.location := by
  obtain ⟨first, last, ⟨rfl, member⟩ | both, rfl⟩ := spans
  · exact ⟨first, member, first, member, rfl⟩
  · exact ⟨first, both.subset (by simp), last, both.subset (by simp), rfl⟩

/-- What starts in some tokens and ends in later ones. -/
theorem append (front : Spans tokens place) (back : Spans more other) :
    Spans (tokens ++ more) (.span place other) := by
  obtain ⟨first, member, _, _, rfl⟩ := front.ends
  obtain ⟨_, _, last, member', rfl⟩ := back.ends
  exact ⟨first, last, .inr ((List.singleton_sublist.mpr member).append
    (List.singleton_sublist.mpr member')), rfl⟩

end Spans

/-- An expression and all inside it stand from one of some tokens through another. -/
def Ast.Expr.StandsIn (expr : Ast.Expr) (tokens : List (Located Token)) : Prop :=
  ∀ part ∈ expr.parts, Spans tokens part.location

/-- An expression is a part of itself. -/
theorem Ast.Expr.mem_parts (expr : Ast.Expr) : expr ∈ expr.parts := by
  cases expr <;> simp [parts]

/-- What stands in some tokens stands in more. -/
theorem Ast.Expr.StandsIn.mono {expr : Ast.Expr} {tokens more : List (Located Token)}
    (stands : expr.StandsIn tokens) (within : tokens.Sublist more) : expr.StandsIn more :=
  fun part member => (stands part member).mono within

/-- An expression itself stands in its tokens. -/
theorem Ast.Expr.StandsIn.own {expr : Ast.Expr} {tokens : List (Located Token)}
    (stands : expr.StandsIn tokens) : Spans tokens expr.location :=
  stands expr expr.mem_parts

namespace Parser

variable {α β : Type} {before : List (Located Token)}

/--
Behind given tokens, a reader takes more of them, all of which are related to what it gives.

The cursor remembers the place of the last token taken.
-/
def Places (before : List (Located Token)) (parser : Parser α)
    (fine : α → List (Located Token) → Prop) : Prop :=
  ∀ cursor value after, (∀ token ∈ before.getLast?, cursor.last = token.location) →
    parser.run cursor = .ok (value, after) →
    ∃ taken, cursor.tokens = taken ++ after.tokens ∧
      (∀ token ∈ (before ++ taken).getLast?, after.last = token.location) ∧
      fine value (before ++ taken)

namespace Places

variable {parser : Parser α} {rest : α → Parser β} {fine weaker : α → List (Located Token) → Prop}
  {final : β → List (Located Token) → Prop}

/-- A reader that takes nothing. -/
theorem pure {value : α} (holds : fine value before) : Places before (pure value) fine := by
  rintro cursor _ _ last ⟨⟩
  exact ⟨[], rfl, by simpa using last, by simpa using holds⟩

/-- A reader that fails promises anything. -/
theorem fail (error : ParseError) : Places before (fail error : Parser α) fine := by
  rintro cursor value after last ⟨⟩

/-- The second reader goes on behind the tokens of the first. -/
theorem bind (first : Places before parser fine)
    (later : ∀ value all, fine value all → Places all (rest value) final) :
    Places before (parser >>= rest) final := by
  intro cursor value after last ran
  simp only [StateT.run_bind, bind_eq_ok, Prod.exists] at ran
  obtain ⟨one, between, ran, ran'⟩ := ran
  obtain ⟨taken, ahead, last', holds⟩ := first cursor one between last ran
  obtain ⟨more, ahead', last'', holds'⟩ := later one _ holds between value after last' ran'
  refine ⟨taken ++ more, by rw [ahead, ahead', List.append_assoc], ?_, ?_⟩ <;>
  rwa [← List.append_assoc]

/-- What follows from what is promised. -/
theorem weaken (places : Places before parser fine)
    (follows : ∀ value all, fine value all → weaker value all) : Places before parser weaker := by
  intro cursor value after last ran
  obtain ⟨taken, ahead, last', holds⟩ := places cursor value after last ran
  exact ⟨taken, ahead, last', follows _ _ holds⟩

end Places

/-! ## Single tokens -/

/-- The next token is taken. -/
theorem next_places : Places before next fun token all => all = before ++ [token] := by
  rintro ⟨tokens, place⟩ value after last ran
  cases tokens with
  | nil => cases ran
  | cons token tokens =>
    cases ran
    exact ⟨[value], rfl, by simp, rfl⟩

/-- A reader that takes nothing. -/
theorem peek?_places : Places before peek? fun _ all => all = before := by
  rintro cursor value after last ⟨⟩
  exact ⟨[], rfl, by simpa using last, by simp⟩

/-- A test takes no token. -/
theorem sees_places (wanted : Token) : Places before (sees wanted) fun _ all => all = before :=
  peek?_places.bind fun _ _ same => .pure same

/-- Nor does a look ahead. -/
theorem peek_places : Places before peek fun _ all => all = before := by
  rintro ⟨tokens, place⟩ value after last ran
  cases tokens with
  | nil => cases ran
  | cons token tokens =>
    cases ran
    exact ⟨[], rfl, by simpa using last, by simp⟩

/-- A mark is one token. -/
theorem mark_places (wanted : Punct) :
    Places before (mark wanted) fun _ all => ∃ token, all = before ++ [token] := by
  rintro ⟨tokens, place⟩ value after last ran
  cases tokens with
  | nil => cases ran
  | cons found tokens =>
    have run : (mark wanted).run ⟨found :: tokens, place⟩ =
        (if found.value = .punct wanted then Pure.pure ()
          else Parser.fail (.unexpectedToken (.punct wanted) found.value) : Parser Unit).run
            ⟨tokens, found.location⟩ := rfl
    rw [run] at ran
    split at ran <;> cases ran
    exact ⟨[found], rfl, by simp, found, rfl⟩

/-- An identifier stands where its token does. -/
theorem identifier_places : Places before identifier fun name all =>
    ∃ token, all = before ++ [token] ∧ name.location = token.location := by
  rw [identifier]
  refine next_places.bind ?_
  rintro token _ rfl
  cases value : token.value with
  | id name => exact .pure ⟨token, rfl, rfl⟩
  | _ => exact .fail _

/-- The last token taken ends the place. -/
theorem spanFrom_places (start : Location) {token : Located Token} :
    Places (before ++ [token]) (spanFrom start) fun place all =>
      all = before ++ [token] ∧ place = .span start token.location := by
  rintro cursor value after last ⟨⟩
  refine ⟨[], rfl, by simpa using last, by simp, ?_⟩
  rw [last token (by simp)]

/-! ## Expressions -/

/-- A reader of expressions gives one that stands in the tokens it takes. -/
def Stands (parser : Parser Ast.Expr) : Prop :=
  ∀ before, Places before parser fun expr all =>
    ∃ taken, all = before ++ taken ∧ expr.StandsIn taken

/-- The tokens between two commas hold an expression. -/
theorem separatedTail_places {item : Parser Ast.Expr} (stands : Stands item) (close : Token)
    (budget : Nat) (before : List (Located Token)) :
    Places before (separatedTail item close budget) fun args all =>
      ∃ taken last, all = before ++ taken ++ [last] ∧
        ∀ part ∈ Ast.Expr.partsAll args, Spans taken part.location := by
  induction budget generalizing before with
  | zero => exact .fail _
  | succ budget ih =>
    rw [separatedTail]
    refine (stands before).bind ?_
    rintro first _ ⟨taken, rfl, inside⟩
    refine next_places.bind ?_
    rintro found _ rfl
    split
    · refine (ih _).bind ?_
      rintro args _ ⟨more, last, rfl, others⟩
      refine .pure ⟨taken ++ found :: more, last, by simp, ?_⟩
      refine List.forall_mem_append.mpr ⟨fun part member => ?_, fun part member => ?_⟩
      · exact (inside part member).mono (List.sublist_append_left _ _)
      · exact (others part member).mono
          ((List.sublist_cons_self _ _).trans (List.sublist_append_right _ _))
    · split
      · exact .pure ⟨taken, found, rfl, by simpa [Ast.Expr.partsAll] using! inside⟩
      · exact .fail _

/-- The list may also have no entry. -/
theorem separated_places {item : Parser Ast.Expr} (stands : Stands item) (close : Token)
    (budget : Nat) (before : List (Located Token)) :
    Places before (separated item close budget) fun args all =>
      ∃ taken last, all = before ++ taken ++ [last] ∧
        ∀ part ∈ Ast.Expr.partsAll args, Spans taken part.location := by
  rw [separated]
  refine peek_places.bind ?_
  rintro token _ rfl
  split
  · refine next_places.bind ?_
    rintro last _ rfl
    exact .pure ⟨[], last, by simp, by simp [Ast.Expr.partsAll]⟩
  · exact separatedTail_places stands close budget _

/-- A literal stands at its token. -/
theorem literal_stands : Stands literal := by
  intro before
  rw [literal]
  refine next_places.bind ?_
  rintro token _ rfl
  -- A literal is one token, whatever its value.
  have single : ∀ expr : Ast.Expr, expr.parts = [expr] → expr.location = token.location →
      ∃ taken, before ++ [token] = before ++ taken ∧ expr.StandsIn taken := by
    intro expr alone place
    refine ⟨[token], rfl, ?_⟩
    rw [Ast.Expr.StandsIn, alone, List.forall_mem_singleton, place]
    exact .token (by simp)
  cases token.value with
  | int value | char byte => exact .pure (single _ rfl rfl)
  | keyword word =>
    cases word with
    | trueValue | falseValue => exact .pure (single _ rfl rfl)
    | _ => exact .fail _
  | _ => exact .fail _

/-- What extends a left operand stands in its tokens and in those that are taken. -/
def ClimbStands (budget : Nat) : Prop :=
  ∀ least left own before, Ast.Expr.StandsIn left own →
    Places before (climb budget least left) fun expr all =>
      ∃ taken, all = before ++ taken ∧ expr.StandsIn (own ++ taken)

section Operands

variable {budget : Nat} (operandStands : Stands (operand budget)) (climbStands : ClimbStands budget)

include operandStands climbStands

/-- An operand, and then what extends it. -/
theorem whole_stands (least : Nat) : Stands (operand budget >>= climb budget least) := by
  intro before
  refine (operandStands before).bind ?_
  rintro left _ ⟨own, rfl, inside⟩
  refine (climbStands least left own _ inside).weaken ?_
  rintro expr _ ⟨taken, rfl, stands⟩
  exact ⟨own ++ taken, by simp, stands⟩

/-- One operator more, and what extends the whole. -/
theorem climb_stands : ClimbStands (budget + 1) := by
  intro least left own before inside
  have done : ∃ taken, before = before ++ taken ∧ left.StandsIn (own ++ taken) :=
    ⟨[], by simp, by simpa using inside⟩
  rw [climb]
  refine peek?_places.bind ?_
  rintro token _ rfl
  split
  · exact .pure done
  · split
    · exact .pure done
    · refine next_places.bind ?_
      rintro sign _ rfl
      rw [← bind_assoc]
      refine (whole_stands operandStands climbStands _ _).bind ?_
      rintro right _ ⟨more, rfl, there⟩
      -- The operator joins what stands on its two sides.
      have joined : ∀ op, (Ast.Expr.binary op left right
          (.span left.location right.location)).StandsIn (own ++ sign :: more) := by
        intro op
        have behind := there.mono (List.sublist_cons_self sign more)
        refine List.forall_mem_cons.mpr ⟨inside.own.append behind.own, ?_⟩
        exact List.forall_mem_append.mpr ⟨inside.mono (List.sublist_append_left _ _),
          behind.mono (List.sublist_append_right _ _)⟩
      refine (climbStands least _ _ _ (joined _)).weaken ?_
      rintro expr _ ⟨taken, rfl, stands⟩
      exact ⟨sign :: more ++ taken, by simp, by simpa using stands⟩

/-- An operand from its first token on. -/
theorem operand_stands : Stands (operand (budget + 1)) := by
  have whole := whole_stands operandStands climbStands 1
  intro before
  rw [operand]
  refine peek_places.bind ?_
  rintro token _ rfl
  split
  · refine next_places.bind ?_
    rintro sign _ rfl
    refine (operandStands _).bind ?_
    rintro inner _ ⟨more, rfl, inside⟩
    refine .pure ⟨sign :: more, by simp, List.forall_mem_cons.mpr ⟨?_, ?_⟩⟩
    · exact (Spans.token (List.mem_singleton_self sign)).append inside.own
    · exact inside.mono (List.sublist_cons_self _ _)
  · split
    · refine identifier_places.bind ?_
      rintro name _ ⟨first, rfl, place⟩
      have start : Spans [first] name.location := place ▸ .token (List.mem_singleton_self first)
      refine (sees_places _).bind ?_
      rintro called _ rfl
      split
      · refine (mark_places _).bind ?_
        rintro _ _ ⟨opened, rfl⟩
        refine (separated_places whole _ budget _).bind ?_
        rintro args _ ⟨more, last, rfl, others⟩
        refine (spanFrom_places _).bind ?_
        rintro _ _ ⟨rfl, rfl⟩
        refine .pure ⟨first :: opened :: more ++ [last], by simp, List.forall_mem_cons.mpr ⟨?_, ?_⟩⟩
        · exact start.append (.token (by simp))
        · exact fun part member => (others part member).mono (by grind)
      · refine (sees_places _).bind ?_
        rintro indexed _ rfl
        split
        · refine (mark_places _).bind ?_
          rintro _ _ ⟨opened, rfl⟩
          rw [← bind_assoc]
          refine (whole _).bind ?_
          rintro index _ ⟨more, rfl, inside⟩
          refine (mark_places _).bind ?_
          rintro _ _ ⟨last, rfl⟩
          refine (spanFrom_places _).bind ?_
          rintro _ _ ⟨rfl, rfl⟩
          refine .pure ⟨first :: opened :: more ++ [last], by simp,
            List.forall_mem_cons.mpr ⟨?_, ?_⟩⟩
          · exact start.append (.token (by simp))
          · exact inside.mono (by grind)
        · exact .pure ⟨[first], rfl, List.forall_mem_singleton.mpr start⟩
    · refine (mark_places _).bind ?_
      rintro _ _ ⟨opened, rfl⟩
      rw [← bind_assoc]
      refine (whole _).bind ?_
      rintro inner _ ⟨more, rfl, inside⟩
      refine (mark_places _).bind ?_
      rintro _ _ ⟨last, rfl⟩
      exact .pure ⟨opened :: more ++ [last], by simp, inside.mono (by grind)⟩
    · exact literal_stands _

end Operands

/-- An expression and all inside it stand in the tokens that are read for it. -/
theorem expression_stands (budget : Nat) : Stands (expression budget) := by
  have both : Stands (operand budget) ∧ ClimbStands budget := by
    induction budget with
    | zero =>
      refine ⟨fun before => .fail _, fun least left own before inside => ?_⟩
      exact .pure ⟨[], by simp, by simpa using inside⟩
    | succ budget ih => exact ⟨operand_stands ih.1 ih.2, climb_stands ih.1 ih.2⟩
  exact whole_stands both.1 both.2 1

end Parser

end Coro
