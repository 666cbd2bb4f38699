import Coro.Emit.Expr
import Coro.Proofs.Parser.Completeness.Expr
import Coro.Proofs.Program.Reference
import Coro.Proofs.Token.Cutting

/-!
Expressions in the generated file, read as those of a description.

Every operator is written with parentheses around it, and no two marks stand side by side that could
be taken for one. So the text of an expression is read as the same tree, with the names that were
written for its variables and functions.
-/

namespace Coro.Emit

variable {name : String} {text : List Char}

mutual

/-- The tree that an expression is written as. -/
def exprTree (names : Names) : Expr → Ast.Expr
  | .const value => .int value.toInt.toNat default
  | .read var => .name ⟨names.var var, default⟩
  | .element var index => .element ⟨names.var var, default⟩ (exprTree names index) default
  | .call callee args => .call ⟨names.callee callee, default⟩ (exprTrees names args) default
  | .unary op operand => .unary op (exprTree names operand) default
  | .binary op left right => .binary op (exprTree names left) (exprTree names right) default

/-- The trees that expressions are written as. -/
def exprTrees (names : Names) : List Expr → List Ast.Expr
  | [] => []
  | first :: rest => exprTree names first :: exprTrees names rest

end

mutual

/-- The constants of an expression. -/
def constants : Expr → List Int64
  | .const value => [value]
  | .read _ => []
  | .element _ index => constants index
  | .call _ args => constantsAll args
  | .unary _ operand => constants operand
  | .binary _ left right => constants left ++ constants right

/-- The constants of expressions. -/
def constantsAll : List Expr → List Int64
  | [] => []
  | first :: rest => constants first ++ constantsAll rest

end

/-- A constant that can be written as a literal. -/
def IsLiteral (value : Int64) : Prop :=
  0 ≤ value.toInt ∧ value.toInt ≤ literalMax

/-- What is called by an identifier. -/
def identified (names : Names) : References where
  var var := IsIdentifier (names.var var)
  callee callee := IsIdentifier (names.callee callee)
  subroutine _ := True

/-- An expression whose constants are literals and whose names are identifiers. -/
structure Readable (names : Names) (expr : Expr) : Prop where
  literals : ∀ value ∈ constants expr, IsLiteral value
  identifiers : expr.Refers (identified names)

/-! ## Marks in a text -/

/-- A mark that starts no longer one is cut into itself. -/
theorem cuts_bracket {c : Char} {mark : Punct} (starts : startsMark c = true)
    (single : singlePunct? c = some mark) (short : c ∈ ['(', ')', '[', ']', ','])
    (rest : List Char) : Cuts [c] [.punct mark] rest := by
  -- No mark of two characters starts with one of these.
  refine cuts_mark starts single fun next _ => ?_
  simp only [List.mem_cons, List.not_mem_nil, or_false] at short
  rcases short with rfl | rfl | rfl | rfl | rfl <;> exact ⟨rfl, by simp⟩

theorem cuts_brackets {text rest : List Char} {tokens : List Token}
    (cuts : Cuts text tokens (']' :: rest)) :
    Cuts ('[' :: (text ++ [']'])) (Ast.bracketed tokens) rest :=
  (cuts_bracket (by decide) rfl (by decide) _).append
    (cuts.append (cuts_bracket (by decide) rfl (by decide) rest))

theorem cuts_parentheses {text rest : List Char} {tokens : List Token}
    (cuts : Cuts text tokens (')' :: rest)) :
    Cuts ('(' :: (text ++ [')'])) (Ast.parenthesized tokens) rest :=
  (cuts_bracket (by decide) rfl (by decide) _).append
    (cuts.append (cuts_bracket (by decide) rfl (by decide) rest))

/-- A binary operator is cut into its token where a blank follows. -/
theorem cuts_binary (op : BinaryOp) (rest : List Char) :
    Cuts op.symbol.toList [op.token] (' ' :: rest) := by
  -- No mark of two characters ends in a blank, and no comment starts with one.
  have single : ∀ {c : Char} {mark : Punct}, startsMark c = true → singlePunct? c = some mark →
      doublePunct? c ' ' = none → Cuts [c] [.punct mark] (' ' :: rest) := by
    intro c mark starts single alone
    refine cuts_mark starts single ?_
    rintro _ ⟨⟩
    exact ⟨alone, fun _ => by decide⟩
  cases op with
  | shl | shr | equal | notEqual | lessOrEqual | greaterOrEqual | logicAnd | logicOr =>
    exact cuts_doubleMark (by decide) rfl (by decide) _
  | _ => exact single (by decide) rfl rfl

/-- A unary operator is cut into its token where an operand follows. -/
theorem cuts_unary (op : UnaryOp) {c : Char} (operand : isWordChar c = true ∨ c = '(')
    (rest : List Char) : Cuts op.symbol.toList [op.token] (c :: rest) := by
  -- No operand starts with a character that makes a longer mark of the operator.
  have other : c ≠ '=' ∧ c ≠ '>' := by
    rcases operand with word | rfl
    · constructor <;> rintro rfl <;> simp [isWordChar] at word
    · decide
  have single : ∀ {sign : Char} {mark : Punct}, startsMark sign = true →
      singlePunct? sign = some mark → sign ∈ ['-', '!', '~'] →
      Cuts [sign] [.punct mark] (c :: rest) := by
    intro sign mark starts single member
    simp only [List.mem_cons, List.not_mem_nil, or_false] at member
    refine cuts_mark starts single ?_
    rintro _ ⟨⟩
    refine ⟨?_, by rintro rfl; simp at member⟩
    unfold doublePunct?
    split <;> simp_all
  cases op with
  | negate | not | complement => exact single (by decide) rfl (by decide)

/-! ## Texts of expressions -/

/-- A text is cut into tokens that spell a tree at every level, where no word goes on with it. -/
structure Spells (text : List Char) (tree : Ast.Expr) : Prop where
  starts : ∃ c others, text = c :: others ∧ (isWordChar c = true ∨ c = '(')
  line : '\n' ∉ text
  cut : ∃ tokens, (∀ level, tree.Spelled level tokens) ∧
    ∀ rest, Separates rest → Cuts text tokens rest

theorem separates_cons {c : Char} (other : isWordChar c = false) (rest : List Char) :
    Separates (c :: rest) := by
  rintro _ ⟨⟩
  exact other

/-- A name spells itself. -/
theorem spells_name (identifier : IsIdentifier name) :
    Spells name.toList (.name ⟨name, default⟩) := by
  -- An identifier has no character of another kind, so no line feed either.
  obtain ⟨first, others, same, _⟩ := identifier.start
  refine ⟨⟨first, others, same, .inl (identifier.inside first (by simp [same]))⟩, fun feed => ?_,
    [.id name], fun level => .name, fun rest separates => identifier.cuts separates⟩
  have word := identifier.inside _ feed
  simp [isWordChar] at word

/-- A number spells itself. -/
theorem spells_number {value : Nat} (fits : value ≤ literalMax) :
    Spells (toString value).toList (.int value default) := by
  -- A number has only digits, so no line feed either.
  obtain ⟨first, others, same⟩ := List.exists_cons_of_ne_nil (toString_ne_nil value)
  have digit : first.isDigit = true :=
    isDigit_of_mem_toString (by rw [same]; exact List.mem_cons_self)
  refine ⟨⟨first, others, same, .inl (isWordChar_digit digit)⟩, fun feed => ?_, [.int value],
    fun level => .int, fun rest separates => cuts_number fits separates⟩
  have digit := isDigit_of_mem_toString feed
  simp at digit

/-- An element is spelled by its array and its index in brackets. -/
theorem spells_element (identifier : IsIdentifier name) {index : Ast.Expr}
    (spells : Spells text index) :
    Spells (name.toList ++ '[' :: (text ++ [']']))
      (.element ⟨name, default⟩ index default) := by
  -- The bracket ends the name, and the other one ends the index.
  obtain ⟨⟨first, others, same, starts⟩, line, _⟩ := spells_name identifier
  obtain ⟨tokens, spelled, cuts⟩ := spells.cut
  refine ⟨⟨first, others ++ '[' :: (text ++ [']']), by rw [same]; rfl, starts⟩, ?_,
    .id name :: Ast.bracketed tokens, fun level => .element (spelled 1), fun rest _ => ?_⟩
  · simp only [List.mem_append, List.mem_cons, List.not_mem_nil, or_false, not_or]
    exact ⟨line, by decide, spells.line, by decide⟩
  · have inside := cuts_brackets (cuts (']' :: rest) (separates_cons (by decide) rest))
    exact (identifier.cuts (separates_cons (by decide) _)).append inside

/-- An operation is spelled by its operator and its operand in parentheses. -/
theorem spells_unary (op : UnaryOp) {operand : Ast.Expr} (spells : Spells text operand) :
    Spells ('(' :: (op.symbol.toList ++ text ++ [')'])) (.unary op operand default) := by
  -- The parenthesis behind the operand ends it; the operator stands right before it.
  obtain ⟨first, others, same, starts⟩ := spells.starts
  obtain ⟨tokens, spelled, cuts⟩ := spells.cut
  refine ⟨⟨'(', _, rfl, .inr rfl⟩, ?_, Ast.parenthesized (op.token :: tokens),
    fun level => .grouped (.unary (spelled _)), fun rest _ => cuts_parentheses ?_⟩
  · have symbol : '\n' ∉ op.symbol.toList := by cases op <;> decide
    simp only [List.mem_append, List.mem_cons, List.not_mem_nil, or_false, not_or]
    exact ⟨by decide, ⟨symbol, spells.line⟩, by decide⟩
  · have sign := cuts_unary op starts (others ++ ')' :: rest)
    rw [← List.cons_append, ← same] at sign
    exact sign.append (cuts (')' :: rest) (separates_cons (by decide) rest))

/-- An operation is spelled by its operands and the operator between them, in parentheses. -/
theorem spells_binary (op : BinaryOp) {text text' : List Char} {left right : Ast.Expr}
    (one : Spells text left) (other : Spells text' right) :
    Spells ('(' :: (text ++ ' ' :: (op.symbol.toList ++ ' ' :: text') ++ [')']))
      (.binary op left right default) := by
  -- The operands are spelled at every level, so at those that the operator asks for.
  obtain ⟨tokens, spelled, cuts⟩ := one.cut
  obtain ⟨tokens', spelled', cuts'⟩ := other.cut
  refine ⟨⟨'(', _, rfl, .inr rfl⟩, ?_, Ast.parenthesized (tokens ++ op.token :: tokens'),
    fun level => .grouped (.binary (by cases op <;> decide) (spelled _) (spelled' _)),
    fun rest _ => cuts_parentheses ?_⟩
  · have symbol : '\n' ∉ op.symbol.toList := by cases op <;> decide
    simp only [List.mem_append, List.mem_cons, List.not_mem_nil, or_false, not_or]
    exact ⟨by decide, ⟨one.line, by decide, symbol, by decide, other.line⟩, by decide⟩
  · -- Blanks set the operator apart from both operands.
    have blank : ∀ rest, Cuts [' '] [] rest := Cuts.blank (by decide)
    have behind := cuts' (')' :: rest) (separates_cons (by decide) rest)
    have sign := (cuts_binary op (text' ++ ')' :: rest)).append ((blank _).append behind)
    exact (cuts _ (separates_cons (by decide) _)).append ((blank _).append sign)

/-- Texts with commas between them are cut into tokens that spell their trees one by one. -/
structure SpellList (texts : List (List Char)) (trees : List Ast.Expr) : Prop where
  line : '\n' ∉ [',', ' '].intercalate texts
  cut : ∃ pieces : List (Ast.Expr × List Token), trees = pieces.map Prod.fst ∧
    (∀ piece ∈ pieces, piece.1.Spelled 1 piece.2) ∧ ∀ rest, Separates rest →
      Cuts ([',', ' '].intercalate texts) (Ast.commas (pieces.map Prod.snd)) rest

theorem spellList_cons {texts : List (List Char)} {tree : Ast.Expr}
    {trees : List Ast.Expr} (first : Spells text tree) (others : SpellList texts trees)
    (together : texts = [] ↔ trees = []) : SpellList (text :: texts) (tree :: trees) := by
  -- A comma stands behind the entry exactly if there are others.
  obtain ⟨tokens, spelled, cuts⟩ := first.cut
  obtain ⟨line, pieces, rfl, all, cuts'⟩ := others
  have allSpelled := List.forall_mem_cons (p := fun piece : Ast.Expr × List Token =>
    piece.1.Spelled 1 piece.2) (a := (tree, tokens)).mpr ⟨spelled 1, all⟩
  cases texts with
  | nil =>
    obtain rfl : pieces = [] := by simpa using together
    refine ⟨by simpa using first.line, [(tree, tokens)], rfl, allSpelled, fun rest separates => ?_⟩
    simpa using cuts rest separates
  | cons second texts =>
    have more : pieces.map Prod.snd ≠ [] := by simpa using together
    refine ⟨?_, (tree, tokens) :: pieces, rfl, allSpelled, fun rest separates => ?_⟩
    · rw [List.intercalate_cons_cons]
      simp only [List.mem_append, List.mem_cons, List.not_mem_nil, or_false, not_or]
      exact ⟨⟨first.line, by decide, by decide⟩, line⟩
    · rw [List.intercalate_cons_cons, List.append_assoc, List.map_cons, Ast.commas_cons more]
      have comma := cuts_bracket (c := ',') (by decide) rfl (by decide)
        (' ' :: ([',', ' '].intercalate (second :: texts) ++ rest))
      have blank := Cuts.blank (c := ' ') (by decide)
        ([',', ' '].intercalate (second :: texts) ++ rest)
      exact (cuts _ (separates_cons (by decide) _)).append
        (comma.append (blank.append (cuts' rest separates)))

/-- A call is spelled by the function and its arguments in parentheses. -/
theorem spells_call (identifier : IsIdentifier name) {texts : List (List Char)}
    {args : List Ast.Expr} (spells : SpellList texts args) :
    Spells (name.toList ++ '(' :: ([',', ' '].intercalate texts ++ [')']))
      (.call ⟨name, default⟩ args default) := by
  -- The parenthesis ends the name, and the other one ends the last argument.
  obtain ⟨⟨first, others, same, starts⟩, line, _⟩ := spells_name identifier
  obtain ⟨inside, pieces, rfl, all, cuts⟩ := spells
  refine ⟨⟨first, others ++ '(' :: ([',', ' '].intercalate texts ++ [')']), by rw [same]; rfl,
    starts⟩, ?_, .id name :: Ast.parenthesized (Ast.commas (pieces.map Prod.snd)),
    fun level => .call all, fun rest _ => ?_⟩
  · simp only [List.mem_append, List.mem_cons, List.not_mem_nil, or_false, not_or]
    exact ⟨line, by decide, inside, by decide⟩
  · have arguments := cuts_parentheses (cuts (')' :: rest) (separates_cons (by decide) rest))
    exact (identifier.cuts (separates_cons (by decide) _)).append arguments

theorem IsLiteral.toString_eq {value : Int64} (literal : IsLiteral value) :
    toString value.toInt = toString value.toInt.toNat ∧ value.toInt.toNat ≤ literalMax := by
  -- It is not negative, so it has no sign.
  obtain ⟨positive, small⟩ := literal
  obtain ⟨natural, same⟩ := Int.eq_ofNat_of_zero_le positive
  rw [same] at small ⊢
  exact ⟨rfl, by omega⟩

mutual

/-- The text of an expression spells its tree. -/
theorem exprText_spells (names : Names) (expr : Expr)
    (literals : ∀ value ∈ constants expr, IsLiteral value)
    (identifiers : expr.Refers (identified names)) :
    Spells (exprText names expr).toList (exprTree names expr) := by
  cases expr with
  | const value =>
    obtain ⟨same, fits⟩ := (literals value (by simp [constants])).toString_eq
    rw [exprText, exprTree, same]
    exact spells_number fits
  | read var => exact spells_name identifiers
  | element var index =>
    have inner := exprText_spells names index literals identifiers.2
    simpa [exprText, exprTree] using spells_element identifiers.1 inner
  | call callee args =>
    have inner := exprTexts_spell names args literals identifiers.2
    simpa [exprText, exprTree, String.toList_intercalate] using spells_call identifiers.1 inner
  | unary op operand =>
    have inner := exprText_spells names operand literals identifiers
    simpa [exprText, exprTree] using spells_unary op inner
  | binary op left right =>
    rw [constants, List.forall_mem_append] at literals
    have one := exprText_spells names left literals.1 identifiers.1
    have other := exprText_spells names right literals.2 identifiers.2
    simpa [exprText, exprTree] using spells_binary op one other

theorem exprTexts_spell (names : Names) (exprs : List Expr)
    (literals : ∀ value ∈ constantsAll exprs, IsLiteral value)
    (identifiers : Expr.RefersAll (identified names) exprs) :
    SpellList ((exprTexts names exprs).map String.toList) (exprTrees names exprs) := by
  cases exprs with
  | nil =>
    have none : SpellList [] [] := ⟨by simp, [], rfl, by simp, fun rest _ => .nil rest⟩
    exact none
  | cons first others =>
    rw [constantsAll, List.forall_mem_append] at literals
    refine spellList_cons (exprText_spells names first literals.1 identifiers.1)
      (exprTexts_spell names others literals.2 identifiers.2) ?_
    cases others <;> simp [exprTexts, exprTrees]

end

mutual

/-- The tree of an expression has no places. -/
theorem exprTree_bare (names : Names) (expr : Expr) :
    (exprTree names expr).bare = exprTree names expr := by
  cases expr with
  | const value => rfl
  | read var => rfl
  | element var index => simp [exprTree, Ast.Expr.bare, exprTree_bare names index]
  | call callee args => simp [exprTree, Ast.Expr.bare, exprTrees_bare names args]
  | unary op operand => simp [exprTree, Ast.Expr.bare, exprTree_bare names operand]
  | binary op left right =>
    simp [exprTree, Ast.Expr.bare, exprTree_bare names left, exprTree_bare names right]

theorem exprTrees_bare (names : Names) (exprs : List Expr) :
    (exprTrees names exprs).map Ast.Expr.bare = exprTrees names exprs := by
  cases exprs with
  | nil => rfl
  | cons first others =>
    rw [exprTrees, List.map_cons, exprTree_bare names first, exprTrees_bare names others]

end

/-! ## Reading texts back -/

/-- A text is cut into tokens, and all of them are read as a tree, up to places. -/
def ReadsBack (text : String) (tree : Ast.Expr) : Prop :=
  ∀ name start, ∃ tokens, (Source.ofText name text).tokens = .ok tokens ∧
    ∀ budget, tokens.length ≤ budget → ∃ found last,
      (Parser.expression budget).run ⟨tokens, start⟩ = .ok (found, ⟨[], last⟩) ∧ found.bare = tree

/-- A text that spells a tree without places is read back as it. -/
theorem Spells.readsBack {text : String} {tree : Ast.Expr} (spells : Spells text.toList tree)
    (bare : tree.bare = tree) : ReadsBack text tree := by
  -- The text is one line, and the line feed behind it separates words.
  intro name start
  obtain ⟨first, others, same, _⟩ := spells.starts
  obtain ⟨tokens, spelled, cuts⟩ := spells.cut
  obtain ⟨located, lexed, rfl⟩ := Source.tokens_of_cuts name spells.line (by simp [same])
    (cuts ['\n'] (separates_cons (by decide) []))
  refine ⟨located, lexed, fun budget enough => ?_⟩
  -- Behind the last token nothing is left to go on with the expression.
  have ends : Parser.Ends [] := ⟨⟨by simp, by simp⟩, rfl⟩
  have short : (located.map Located.value ++ []).length ≤ budget := by simpa using enough
  have gives := Parser.expression_gives (spelled 1) ends short
  rw [List.append_nil] at gives
  obtain ⟨found, last, run, right⟩ := gives.run start
  exact ⟨found, last, run, right.trans bare⟩

/-- The expression that reads a place. -/
def placeExpr (place : Place) : Expr :=
  match place.index with
  | none => .read place.var
  | some index => .element place.var index

theorem placeText_eq (names : Names) (place : Place) :
    placeText names place = exprText names (placeExpr place) := by
  obtain ⟨var, index⟩ := place
  cases index <;> rfl

/--
Texts of expressions and places are read back as the trees they were written for.

Their constants are literals and their names identifiers, and then the text as a whole is one
expression, with the same operators, operands, arguments and indices.
-/
theorem texts_read_back (names : Names) :
    (∀ expr, Readable names expr → ReadsBack (exprText names expr) (exprTree names expr)) ∧
      ∀ place, Readable names (placeExpr place) →
        ReadsBack (placeText names place) (exprTree names (placeExpr place)) := by
  -- A place is read like the expression of the same text.
  have expressions : ∀ expr, Readable names expr →
      ReadsBack (exprText names expr) (exprTree names expr) := fun expr readable =>
    (exprText_spells names expr readable.literals readable.identifiers).readsBack
      (exprTree_bare names expr)
  refine ⟨expressions, fun place readable => ?_⟩
  rw [placeText_eq]
  exact expressions (placeExpr place) readable

/-- A variable `x` and a function `f`. -/
def sampleNames : Names :=
  ⟨fun _ => "x", fun _ => "f"⟩

/-- The product of a negated element and what a call gives. -/
def sampleExpr : Expr :=
  .binary .mul (.unary .negate (.element (.static 0) (.const 3)))
    (.call (.function 0) [.const 70, .read (.static 1)])

/-- It is read back from its text. -/
theorem sample_reads_back : exprText sampleNames sampleExpr = "((-x[3]) * f(70, x))" ∧
    ReadsBack "((-x[3]) * f(70, x))" (.binary .mul
      (.unary .negate (.element ⟨"x", default⟩ (.int 3 default) default) default)
      (.call ⟨"f", default⟩ [.int 70 default, .name ⟨"x", default⟩] default) default) := by
  have text : exprText sampleNames sampleExpr = "((-x[3]) * f(70, x))" := by decide +kernel
  have array : IsIdentifier "x" := ⟨⟨'x', [], rfl, rfl⟩, by simp [isWordChar], by decide +kernel⟩
  have function : IsIdentifier "f" := ⟨⟨'f', [], rfl, rfl⟩, by simp [isWordChar], by decide +kernel⟩
  have readable : Readable sampleNames sampleExpr := by
    constructor
    · simp only [sampleExpr, constants, constantsAll]
      intro value member
      simp at member
      rcases member with rfl | rfl <;> exact ⟨by decide, by decide⟩
    · exact ⟨⟨array, trivial⟩, function, trivial, array, trivial⟩
  have back := (texts_read_back sampleNames).1 sampleExpr readable
  rw [text] at back
  exact ⟨text, back⟩

end Coro.Emit
