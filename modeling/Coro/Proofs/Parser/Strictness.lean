import Coro.Proofs.Parser.Soundness.Item

/-!
What is read beyond the documented grammar.

The grammar lets only calls stand for statements and wants a flag in every tuning hint. The readers
ask for neither: they take whatever expression begins with a call, and a hint without flags. Nothing
else sets what they accept apart from the grammar, which leaves to the resolution whether a
subroutine stands in a thread and which words name registers, flags and profiles.
-/

namespace Coro.Ast

variable {tokens : List Token} {member : Member} {statement : Statement}

/-! ## Statements at any depth -/

mutual

/-- A statement and all that stand in its blocks. -/
def Statement.within : Statement → List Statement
  | .ifThen condition taken otherwise =>
    .ifThen condition taken otherwise :: (withinAll taken ++ withinAll otherwise)
  | .whileLoop condition body => .whileLoop condition body :: withinAll body
  | .loop body => .loop body :: withinAll body
  | other => [other]

/-- The statements of a block and all that stand in theirs. -/
def Statement.withinAll : List Statement → List Statement
  | [] => []
  | statement :: others => statement.within ++ withinAll others

end

theorem Statement.withinAll_eq (statements : List Statement) :
    withinAll statements = statements.flatMap within := by
  induction statements with
  | nil => rfl
  | cons first others ih => rw [withinAll, ih, List.flatMap_cons]

mutual

/-- The statements of a coroutine, with those of its subroutines. -/
def Coroutine.within : Coroutine → List Statement
  | ⟨_, _, _, subroutines, statements⟩ =>
    withinAll subroutines ++ Statement.withinAll statements

/-- The statements of several coroutines. -/
def Coroutine.withinAll : List Coroutine → List Statement
  | [] => []
  | coroutine :: others => coroutine.within ++ withinAll others

end

/-- The statements of a body, with those of its subroutines. -/
def Body.within (body : Body) : List Statement :=
  Coroutine.withinAll body.subroutines ++ Statement.withinAll body.statements

@[simp] theorem Coroutine.within_ofBody (name : Located String) (parameters : List Parameter)
    (body : Body) : (Coroutine.ofBody name parameters body).within = body.within :=
  by simp only [ofBody, within, Body.within]

/-- The statements of an item. -/
def Item.within : Item → List Statement
  | .function written => written.body.within
  | .thread written => written.within
  | .hook _ _ body => body.within
  | .entry _ body => body.within
  | _ => []

/-- The statements of a description. -/
def Description.within (description : Description) : List Statement :=
  description.items.flatMap Item.within

/-- The statements of a member of a body. -/
def Member.within : Member → List Statement
  | .static _ => []
  | .subroutine written => written.within
  | .statement written => written.within

/-- The statements of a body are those of its members. -/
theorem Body.mem_within_ofMembers {members : List Member} :
    statement ∈ (Body.ofMembers members).within ↔
      ∃ member ∈ members, statement ∈ member.within := by
  induction members with
  | nil => simp [Body.within, Body.ofMembers, Coroutine.withinAll, Statement.withinAll]
  | cons first members ih =>
    simp only [List.mem_cons, exists_eq_or_imp, ← ih]
    -- A member adds to one of the lists of the body, so to all its statements.
    cases first with
    | static decl => simp [Body.within, Body.ofMembers_static, Member.within]
    | subroutine written =>
      simp only [Body.within, Body.ofMembers_subroutine, Member.within, Coroutine.withinAll,
        List.mem_append, or_assoc]
    | statement written =>
      simp only [Body.within, Body.ofMembers_statement, Member.within, Statement.withinAll,
        List.mem_append, or_left_comm]

/-! ## Both readings of the grammar -/

/-- A statement, if it is an expression, is a call. -/
def Statement.EvaluatesCall : Statement → Prop
  | .eval expr => expr.IsCall
  | _ => True

/-- An item, if it is a tuning hint, has a flag. -/
def Item.Flagged : Item → Prop
  | .tune _ flags => flags ≠ []
  | _ => True

/-- All statements of some pieces are as required if those of every piece are. -/
theorem Statement.forall_withinAll {holds : Statement → Prop}
    {pieces : List (Statement × List Token)} :
    (∀ inner ∈ withinAll (pieces.map Prod.fst), holds inner) ↔
      ∀ piece ∈ pieces, ∀ inner ∈ piece.1.within, holds inner := by
  simp only [withinAll_eq, List.mem_flatMap, List.mem_map, forall_exists_index, and_imp]
  constructor
  · intro all piece member inner found
    exact all inner piece.1 piece member rfl found
  · rintro all inner _ piece member rfl found
    exact all piece member inner found

/-- What is spelled by the grammar has only calls for statements. -/
theorem Statement.Spelled.evaluatesCall (spelled : statement.Spelled false tokens) :
    ∀ inner ∈ statement.within, inner.EvaluatesCall := by
  -- Only an expression can fail to be a call; all others ask it of what stands in them.
  induction spelled with
  | eval value allowed => simpa [within, EvaluatesCall] using allowed
  | ifThen tested inner ih =>
    simpa [within, EvaluatesCall, withinAll] using forall_withinAll.mpr ih
  | ifElse tested inner outer taken otherwise =>
    simp only [within, List.forall_mem_cons, List.forall_mem_append]
    exact ⟨trivial, forall_withinAll.mpr taken, forall_withinAll.mpr otherwise⟩
  | elseIf tested inner chained taken otherwise =>
    simp only [within, withinAll, List.append_nil, List.forall_mem_cons, List.forall_mem_append]
    exact ⟨trivial, forall_withinAll.mpr taken, otherwise⟩
  | whileLoop tested inner ih | loop inner ih =>
    simp only [within, List.forall_mem_cons]
    exact ⟨trivial, forall_withinAll.mpr ih⟩
  | _ => simp [within, EvaluatesCall]

/-- What is read and has only calls for statements is spelled by the grammar. -/
theorem Statement.Spelled.strict (spelled : statement.Spelled true tokens)
    (calls : ∀ inner ∈ statement.within, inner.EvaluatesCall) : statement.Spelled false tokens := by
  -- The same derivation is rebuilt with the rules of the grammar.
  induction spelled with
  | letVar given => exact .letVar given
  | yield => exact .yield
  | waitUntil tested => exact .waitUntil tested
  | call given => exact .call given
  | ifThen tested inner ih =>
    simp only [within, List.forall_mem_cons, List.forall_mem_append, forall_withinAll] at calls
    exact .ifThen tested fun piece member => ih piece member (calls.2.1 piece member)
  | ifElse tested inner outer taken otherwise =>
    simp only [within, List.forall_mem_cons, List.forall_mem_append, forall_withinAll] at calls
    exact .ifElse tested (fun piece member => taken piece member (calls.2.1 piece member))
      fun piece member => otherwise piece member (calls.2.2 piece member)
  | elseIf tested inner chained taken otherwise =>
    simp only [within, List.forall_mem_cons, List.forall_mem_append, forall_withinAll, withinAll,
      List.append_nil] at calls
    exact .elseIf tested (fun piece member => taken piece member (calls.2.1 piece member))
      (otherwise calls.2.2)
  | whileLoop tested inner ih =>
    simp only [within, List.forall_mem_cons, forall_withinAll] at calls
    exact .whileLoop tested fun piece member => ih piece member (calls.2 piece member)
  | loop inner ih =>
    simp only [within, List.forall_mem_cons, forall_withinAll] at calls
    exact .loop fun piece member => ih piece member (calls.2 piece member)
  | breakLoop => exact .breakLoop
  | continueLoop => exact .continueLoop
  | returnFrom given => exact .returnFrom given
  | assign place marked given => exact .assign place marked given
  | eval value allowed =>
    -- The one rule that the grammar narrows.
    exact .eval value (.inr (by simpa [within, EvaluatesCall] using calls))

/-- What is spelled by the grammar has only calls for statements, also in its subroutines. -/
theorem Member.Spelled.evaluatesCall (spelled : member.Spelled false tokens) :
    ∀ inner ∈ member.within, inner.EvaluatesCall := by
  -- Subroutines have members of their own, so the induction is on the spelling.
  induction spelled with
  | static declared => simp [within]
  | subroutine given inner ih =>
    simp only [within, Coroutine.within_ofBody, Body.mem_within_ofMembers, List.mem_map]
    rintro statement ⟨_, ⟨piece, member, rfl⟩, found⟩
    exact ih piece member statement found
  | statement stated => exact stated.evaluatesCall

/-- What is read and has only calls for statements is spelled by the grammar. -/
theorem Member.Spelled.strict (spelled : member.Spelled true tokens)
    (calls : ∀ inner ∈ member.within, inner.EvaluatesCall) : member.Spelled false tokens := by
  -- The same derivation is rebuilt with the rules of the grammar.
  induction spelled with
  | static declared => exact .static declared
  | subroutine given inner ih =>
    simp only [within, Coroutine.within_ofBody, Body.mem_within_ofMembers, List.mem_map] at calls
    exact .subroutine given fun piece member => ih piece member fun statement found =>
      calls statement ⟨_, ⟨piece, member, rfl⟩, found⟩
  | statement stated => exact .statement (stated.strict calls)

/-- The same of a body. -/
theorem Body.Spelled.evaluatesCall {body : Body} (spelled : body.Spelled false tokens) :
    ∀ inner ∈ body.within, inner.EvaluatesCall := by
  -- Every statement of a body stands in one of its members.
  obtain ⟨all⟩ := spelled
  intro statement found
  obtain ⟨_, listed, found⟩ := mem_within_ofMembers.mp found
  obtain ⟨piece, member, rfl⟩ := List.mem_map.mp listed
  exact (all piece member).evaluatesCall statement found

/-- The same of a body. -/
theorem Body.Spelled.strict {body : Body} (spelled : body.Spelled true tokens)
    (calls : ∀ inner ∈ body.within, inner.EvaluatesCall) : body.Spelled false tokens := by
  obtain ⟨all⟩ := spelled
  refine .intro fun piece member => (all piece member).strict fun statement found => ?_
  exact calls statement (mem_within_ofMembers.mpr ⟨_, List.mem_map.mpr ⟨piece, member, rfl⟩, found⟩)

/-- What is spelled by the grammar has only calls for statements, and a flag in a tuning hint. -/
theorem Item.Spelled.evaluatesCall {item : Item} (spelled : item.Spelled false tokens) :
    (∀ inner ∈ item.within, inner.EvaluatesCall) ∧ item.Flagged := by
  -- Four kinds of items have a body; only a tuning hint has flags.
  cases spelled with
  | function inner | thread inner | hook occasion inner | entry inner =>
    exact ⟨by simpa only [within, Coroutine.within_ofBody] using inner.evaluatesCall, trivial⟩
  | tune named flagged => exact ⟨by simp [within], by simpa [Flagged] using flagged⟩
  | _ => exact ⟨by simp [within], trivial⟩

/-- An item with only calls for statements, and a flag if it is a hint, keeps to the grammar. -/
theorem Item.Spelled.strict {item : Item} (spelled : item.Spelled true tokens)
    (calls : ∀ inner ∈ item.within, inner.EvaluatesCall) (flagged : item.Flagged) :
    item.Spelled false tokens := by
  cases spelled with
  | header => exact .header
  | external => exact .external
  | static declared => exact .static declared
  | function inner => exact .function (inner.strict calls)
  | thread inner =>
    exact .thread (inner.strict (by simpa only [within, Coroutine.within_ofBody] using calls))
  | hook occasion inner => exact .hook occasion (inner.strict calls)
  | entry inner => exact .entry (inner.strict calls)
  | useReg named => exact .useReg named
  | tune named _ => exact .tune named (.inr flagged)
  | cflags => exact .cflags

/-- What is spelled by the grammar has only calls for statements, and flags in its tuning hints. -/
theorem Description.Spelled.evaluatesCall {description : Description}
    (spelled : description.Spelled false tokens) :
    (∀ statement ∈ description.within, statement.EvaluatesCall) ∧
      ∀ item ∈ description.items, item.Flagged := by
  -- Every statement and every hint belongs to an item, which was spelled on its own.
  obtain ⟨all⟩ := spelled
  constructor
  · intro statement found
    obtain ⟨_, listed, found⟩ := List.mem_flatMap.mp found
    obtain ⟨piece, member, rfl⟩ := List.mem_map.mp listed
    exact (all piece member).evaluatesCall.1 statement found
  · intro item listed
    obtain ⟨piece, member, rfl⟩ := List.mem_map.mp listed
    exact (all piece member).evaluatesCall.2

/-- What has only calls for statements, and flags in its hints, is spelled by the grammar. -/
theorem Description.Spelled.strict {description : Description}
    (spelled : description.Spelled true tokens)
    (calls : ∀ statement ∈ description.within, statement.EvaluatesCall)
    (flagged : ∀ item ∈ description.items, item.Flagged) : description.Spelled false tokens := by
  -- What is asked of all statements is asked of those of each item.
  obtain ⟨all⟩ := spelled
  refine .intro fun piece member => ?_
  have listed := List.mem_map_of_mem (f := Prod.fst) member
  exact (all piece member).strict
    (fun statement found => calls statement (List.mem_flatMap.mpr ⟨_, listed, found⟩))
    (flagged _ listed)

/-! ## What is accepted -/

/--
All that is read as a description spells it, by the grammar or by its loose reading.

The grammar is left exactly where an expression that is no call stands for a statement, and where a
tuning hint has no flag.
-/
theorem Description.parse_follows_grammar {start : Location} {tokens : List (Located Token)}
    {description : Description} (parsed : parse start tokens = .ok description) :
    description.Spelled true (tokens.map Located.value) ∧
      (description.Spelled false (tokens.map Located.value) ↔
        (∀ statement ∈ description.within, statement.EvaluatesCall) ∧
          ∀ item ∈ description.items, item.Flagged) := by
  -- The loose reading holds of all that is read; the strict one is it without the exceptions.
  have spelled := parse_spelled parsed
  exact ⟨spelled, fun strict => strict.evaluatesCall, fun kept => spelled.strict kept.1 kept.2⟩

/-- Tokens that stand at no place in particular. -/
def unplaced (tokens : List Token) : List (Located Token) :=
  tokens.map fun token => ⟨token, default⟩

@[simp] theorem unplaced_value (tokens : List Token) :
    (unplaced tokens).map Located.value = tokens := by
  simp [unplaced, Function.comp_def]

/-- `tune f pure; main { f(); }` -/
def hintedCall : List Token :=
  [.keyword .tune, .id "f", .id "pure", .punct .semicolon, .keyword .main, .punct .openCurly,
    .id "f", .punct .openParen, .punct .closeParen, .punct .semicolon, .punct .closeCurly]

/-- A hint with a flag and a call for a statement are spelled by the grammar. -/
theorem Description.hintedCall_follows_grammar :
    ∃ description, parse default (unplaced hintedCall) = .ok description ∧
      description.Spelled false hintedCall := by
  -- The description holds one hint and one statement.
  have parsed : parse default (unplaced hintedCall) = .ok
      ⟨[.tune ⟨⟨["f"]⟩, default⟩ [⟨"pure", default⟩],
        .entry default ⟨[], [], [.eval (.call ⟨"f", default⟩ [] default)]⟩], default⟩ := rfl
  refine ⟨_, parsed, (parse_follows_grammar parsed).2.mpr ⟨?_, ?_⟩⟩
  · simp [within, Item.within, Body.within, Coroutine.withinAll, Statement.withinAll,
      Statement.within, Statement.EvaluatesCall, Expr.IsCall]
  · simp [Item.Flagged]

/-- `main { f() + 1; }` -/
def callInSum : List Token :=
  [.keyword .main, .punct .openCurly, .id "f", .punct .openParen, .punct .closeParen, .punct .plus,
    .int 1, .punct .semicolon, .punct .closeCurly]

/-- `tune f;` -/
def hintWithoutFlag : List Token :=
  [.keyword .tune, .id "f", .punct .semicolon]

/-- A sum that begins with a call and a hint without flags are read, though the grammar has none. -/
theorem Description.parse_leaves_grammar :
    (∃ description, parse default (unplaced callInSum) = .ok description ∧
      ¬ description.Spelled false callInSum) ∧
    ∃ description, parse default (unplaced hintWithoutFlag) = .ok description ∧
      ¬ description.Spelled false hintWithoutFlag := by
  constructor
  · have parsed : parse default (unplaced callInSum) = .ok
        ⟨[.entry default ⟨[], [], [.eval (.binary .add (.call ⟨"f", default⟩ [] default)
          (.int 1 default) default)]⟩], default⟩ := rfl
    refine ⟨_, parsed, fun spelled => ?_⟩
    have calls := spelled.evaluatesCall.1
    simp [within, Item.within, Body.within, Coroutine.withinAll, Statement.withinAll,
      Statement.within, Statement.EvaluatesCall, Expr.IsCall] at calls
  · have parsed : parse default (unplaced hintWithoutFlag) = .ok
        ⟨[.tune ⟨⟨["f"]⟩, default⟩ []], default⟩ := rfl
    refine ⟨_, parsed, fun spelled => ?_⟩
    have flagged := spelled.evaluatesCall.2
    simp [Item.Flagged] at flagged

end Coro.Ast
