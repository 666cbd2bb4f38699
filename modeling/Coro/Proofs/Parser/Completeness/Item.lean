import Coro.Parser.Item
import Coro.Proofs.Parser.Completeness.Statement

/-! All tokens that spell declarations and hints are read as them, up to places. -/

namespace Coro

variable {written : Ast.Body} {rest tokens : List Token} {budget : Nat}

namespace Parser

open Ast

/-! ## Declarations -/

/-- The mark of volatile storage is read where a type follows. -/
theorem volatileMark_gives (volatile : Bool) (type : IntType) (rest : List Token) :
    Gives volatileMark (volatileTokens volatile ++ .keyword (.type type) :: rest)
      (fun found => found = volatile) (.keyword (.type type) :: rest) := by
  -- A type is no such mark, so it stays for what comes next.
  rw [Gives, volatileMark]
  refine .peek ?_ (.inr (by simp))
  intro token others same
  cases volatile with
  | false =>
    cases same
    rw [if_neg (by simp)]
    exact .pure ⟨rfl, rfl⟩
  | true =>
    cases same
    rw [if_pos rfl]
    refine .next ?_ (.inr (by simp [volatileTokens]))
    rintro _ _ _ ⟨⟩
    exact .pure ⟨rfl, rfl⟩

/-- A static variable is read behind its keyword. -/
theorem staticDecl_gives {decl : StaticDecl} (spelled : decl.Spelled tokens)
    (short : (tokens ++ rest).length ≤ budget) :
    Gives (staticDecl budget) (tokens ++ rest) (fun found => found.bare = decl.bare) rest := by
  -- Its parts stand one behind the other, as in the declaration of a local variable.
  obtain ⟨given⟩ := spelled
  simp only [List.cons_append, List.append_assoc, List.nil_append] at short ⊢
  rw [Gives, staticDecl]
  refine (volatileMark_gives _ _ _).bind ?_
  rintro _ rfl
  refine .typed fun _ => ?_
  refine .named fun _ => ?_
  refine (length_gives _ (by simp) (by cases given <;> simp)).bind fun length same => ?_
  refine (initializer_gives given (by simp at short ⊢; omega)).bind fun value same' => ?_
  refine .marked ?_
  exact .pure ⟨by simp [StaticDecl.bare, Located.bare, same, same'], rfl⟩

/-- Parameters are read through the parenthesis that closes their list. -/
theorem parameters_give (parameters : List Parameter)
    (fits : (commas (parameters.map Parameter.tokens) ++ .punct .closeParen :: rest).length ≤
      budget) :
    Gives (separated parameter (.punct .closeParen) budget)
      (commas (parameters.map Parameter.tokens) ++ .punct .closeParen :: rest)
      (fun found => found.map Parameter.bare = parameters.map Parameter.bare) rest := by
  -- A parameter has two tokens, whatever follows.
  have reads : PiecesRead parameter Parameter.bare (.punct .closeParen) budget
      (parameters.map fun written => (written, written.tokens)) := by
    rintro _ listed
    obtain ⟨written, _, rfl⟩ := List.mem_map.mp listed
    refine ⟨⟨_, _, rfl, by simp⟩, fun token rest _ _ => ?_⟩
    rw [Gives, parameter]
    refine .typed fun _ => ?_
    refine .named fun _ => ?_
    exact .pure ⟨rfl, rfl⟩
  exact separated_gives_map (by simp) reads fits fits

/-- Parameters are read where a brace follows, whether or not they were left out. -/
theorem optionalParameters_give {parameters : List Parameter}
    (given : Parameters.Spelled parameters tokens)
    (short : (tokens ++ .punct .openCurly :: rest).length ≤ budget) :
    Gives (optionalList parameter budget) (tokens ++ .punct .openCurly :: rest)
      (fun found => found.map Parameter.bare = parameters.map Parameter.bare)
      (.punct .openCurly :: rest) := by
  -- A brace is not the parenthesis that would open a list.
  rw [Gives, optionalList]
  cases given with
  | none =>
    refine .peeked ?_
    rw [if_neg (by simp)]
    exact .pure ⟨rfl, rfl⟩
  | some =>
    simp only [parenthesized, List.cons_append, List.append_assoc, List.nil_append] at short ⊢
    refine .peeked ?_
    rw [if_pos rfl]
    refine .marked ?_
    exact parameters_give parameters (by simp at short ⊢; omega)

/-! ## Bodies -/

/-- A member of a body is read ahead of the others. -/
def MemberReads (member : Member) (tokens : List Token) : Prop :=
  ∀ (members : List Member) (budget : Nat) (rest tail : List Token), NoElse rest →
    (tokens ++ rest).length ≤ budget →
    (∀ less, rest.length ≤ less → Gives (bodyRest less) rest
      (fun found => found.bare = (Ast.Body.ofMembers members).bare) tail) →
    Gives (bodyRest budget) (tokens ++ rest)
      (fun found => found.bare = (Ast.Body.ofMembers (member :: members)).bare) tail

section Members

variable {pieces : List (Member × List Token)} {rest : List Token}
  (spelled : ∀ piece ∈ pieces, piece.1.Spelled true piece.2)

include spelled

/-- Behind a member of a body stands another one or the brace. -/
theorem noElse_members : NoElse (pieces.flatMap Prod.snd ++ .punct .closeCurly :: rest) := by
  -- No member starts with the word of another branch.
  cases pieces with
  | nil => simp [NoElse]
  | cons piece pieces =>
    obtain ⟨member, tokens⟩ := piece
    cases spelled _ List.mem_cons_self with
    | static | subroutine => simp [NoElse]
    | statement stated =>
      obtain ⟨token, others, rfl, other⟩ := stated.begins
      simp only [List.mem_cons, not_or] at other
      simpa [NoElse] using other.2.1

/-- The members of a body are read one by one, through the brace that closes it. -/
theorem bodyRest_gives (reads : ∀ piece ∈ pieces, MemberReads piece.1 piece.2)
    (short : (pieces.flatMap Prod.snd ++ .punct .closeCurly :: rest).length ≤ budget) :
    Gives (bodyRest budget) (pieces.flatMap Prod.snd ++ .punct .closeCurly :: rest)
      (fun found => found.bare = (Ast.Body.ofMembers (pieces.map Prod.fst)).bare) rest := by
  -- By induction on the members: each is read ahead of the ones that follow it.
  induction pieces generalizing budget with
  | nil =>
    obtain ⟨budget, rfl⟩ := spare short
    rw [Gives, bodyRest]
    refine .peeked ?_
    refine .taken fun _ => ?_
    exact .pure ⟨rfl, rfl⟩
  | cons piece pieces ih =>
    obtain ⟨_, others⟩ := List.forall_mem_cons.mp spelled
    obtain ⟨first, othersRead⟩ := List.forall_mem_cons.mp reads
    simp only [List.flatMap_cons, List.append_assoc] at short ⊢
    exact first _ budget _ rest (noElse_members others) short fun less fits =>
      ih others othersRead fits

end Members

/-- A member that is spelled is read. -/
theorem member_reads {member : Member} (spelled : member.Spelled true tokens) :
    MemberReads member tokens := by
  -- Subroutines have members of their own, so the induction is on the spelling.
  induction spelled with
  | static declared =>
    -- Where the members went is seen from the body only, which keeps them apart.
    intro members budget rest tail alone short others
    obtain ⟨budget, rfl⟩ := spare short
    rw [Gives, bodyRest]
    refine .peeked ?_
    refine .taken fun _ => ?_
    refine (staticDecl_gives declared (by simpa using short)).bind fun decl same => ?_
    refine (others budget (by simp at short; omega)).bind fun body sames => ?_
    refine .pure ⟨?_, rfl⟩
    rw [Ast.Body.ofMembers_static, Ast.Body.bare_static, Ast.Body.bare_static, same, sames]
  | subroutine given inner ih =>
    intro members budget rest tail alone short others
    simp only [braced, List.cons_append, List.append_assoc, List.nil_append] at short ⊢
    obtain ⟨budget, rfl⟩ := spare short
    rw [Gives, bodyRest]
    refine .peeked ?_
    refine .taken fun _ => ?_
    refine .named fun _ => ?_
    refine (optionalParameters_give given (by simp at short ⊢; omega)).bind
      fun parameters same => ?_
    refine .marked ?_
    -- The body of the subroutine is read, and then the rest of the one around it.
    refine (bodyRest_gives inner ih (by simp at short ⊢; omega)).bind fun inside same' => ?_
    refine (others budget (by simp at short; omega)).bind fun body sames => ?_
    refine .pure ⟨?_, rfl⟩
    rw [Ast.Body.ofMembers_subroutine, Ast.Body.bare_subroutine, Ast.Body.bare_subroutine, sames,
      Ast.Coroutine.bare_ofBody, Ast.Coroutine.bare_ofBody, same, same']
    rfl
  | statement stated =>
    intro members budget rest tail alone short others
    obtain ⟨budget, rfl⟩ := Nat.exists_eq_add_one_of_ne_zero (n := budget)
      (by have := List.length_pos_iff.mpr stated.ne_nil; simp at short; omega)
    obtain ⟨token, tokens, rfl, other⟩ := stated.begins
    simp only [List.mem_cons, not_or] at other
    have reads := (statement_reads stated).1 (budget + 1) (budget + 1) rest alone short (by omega)
    rw [Gives, bodyRest]
    refine .peeked ?_
    -- The first token of a statement starts nothing else.
    split
    case h_1 => exact absurd rfl other.1
    case h_2 => exact absurd rfl other.2.2.1
    case h_3 => exact absurd rfl other.2.2.2.1
    case h_4 =>
      refine reads.bind fun first same => ?_
      refine (others budget (by simp at short; omega)).bind fun body sames => ?_
      refine .pure ⟨?_, rfl⟩
      rw [Ast.Body.ofMembers_statement, Ast.Body.bare_statement, Ast.Body.bare_statement, same,
        sames]

/-- A body that is spelled is read. -/
theorem body_gives (spelled : written.Spelled true tokens)
    (short : (tokens ++ rest).length ≤ budget) :
    Gives (body budget) (tokens ++ rest) (fun found => found.bare = written.bare) rest := by
  -- Every member is read, as it is spelled.
  obtain ⟨inner⟩ := spelled
  simp only [braced, List.cons_append, List.append_assoc, List.nil_append] at short ⊢
  rw [Gives, body]
  refine .marked ?_
  exact bodyRest_gives inner (fun piece member => member_reads (inner piece member))
    (by simp at short ⊢; omega)

/-! ## Items -/

/-- The names of a path are read where no period follows. -/
theorem pathRest_gives (names : List String) (other : rest.head? ≠ some (.punct .period))
    (fits : names.length ≤ budget) :
    Gives (pathRest budget) ((names.flatMap fun name => [.punct .period, .id name]) ++ rest)
      (fun found => found = names) rest := by
  -- By induction on the names, each of which has a period before it.
  induction names generalizing budget with
  | nil =>
    cases budget with
    | zero => exact .pure ⟨rfl, rfl⟩
    | succ budget =>
      rw [Gives, pathRest]
      refine .sees ?_
      rw [if_neg (by simpa using other)]
      exact .pure ⟨rfl, rfl⟩
  | cons name names ih =>
    obtain ⟨budget, rfl⟩ := spare fits
    rw [Gives, pathRest]
    refine .sees ?_
    rw [if_pos (by simp)]
    refine .marked ?_
    refine .named fun _ => ?_
    refine (ih (by simpa using fits)).bind ?_
    rintro _ rfl
    exact .pure ⟨rfl, rfl⟩

/-- A path with a name is read where no period follows. -/
theorem path_gives {written : Path} (named : written.names ≠ [])
    (other : rest.head? ≠ some (.punct .period))
    (fits : (pathTokens written ++ rest).length ≤ budget) :
    Gives (path budget) (pathTokens written ++ rest) (fun found => found.value = written) rest := by
  -- Every name takes two tokens, so the budget lasts for all of them.
  obtain ⟨names⟩ := written
  obtain ⟨first, names, rfl⟩ := List.exists_cons_of_ne_nil named
  rw [pathTokens_cons, List.cons_append] at fits ⊢
  rw [Gives, path]
  refine .named fun _ => ?_
  have enough : names.length ≤ budget := by
    simp only [List.length_cons, List.length_append, List.length_flatMap, List.length_nil,
      List.map_const', List.sum_replicate_nat] at fits
    omega
  refine (pathRest_gives names other enough).bind ?_
  rintro _ rfl
  exact .spanFrom fun _ => .pure ⟨rfl, rfl⟩

/-- A name that may be left out is read where a semicolon follows. -/
theorem optionalName_gives (name : Option (Located String)) (rest : List Token) :
    Gives optionalName (optionalNameTokens name ++ .punct .semicolon :: rest)
      (fun found => found.map Located.bare = name.map Located.bare)
      (.punct .semicolon :: rest) := by
  -- The semicolon tells that there is no name.
  rw [Gives, optionalName]
  refine .peek ?_ (.inr (by simp))
  intro token others same
  cases name with
  | none =>
    cases same
    rw [if_pos rfl]
    exact .pure ⟨rfl, rfl⟩
  | some name =>
    cases same
    rw [if_neg (by simp)]
    refine .named fun _ => ?_
    exact .pure ⟨rfl, rfl⟩

/-- Flags are read through the semicolon that closes their list. -/
theorem flags_give (flags : List (Located String))
    (fits : (commas (flags.map fun flag => [.id flag.value]) ++ .punct .semicolon :: rest).length ≤
      budget) :
    Gives (separated identifier (.punct .semicolon) budget)
      (commas (flags.map fun flag => [.id flag.value]) ++ .punct .semicolon :: rest)
      (fun found => found.map Located.bare = flags.map Located.bare) rest := by
  -- A flag has one token, whatever follows.
  have reads : PiecesRead identifier Located.bare (.punct .semicolon) budget
      (flags.map fun flag => (flag, [.id flag.value])) := by
    rintro _ listed
    obtain ⟨flag, _, rfl⟩ := List.mem_map.mp listed
    refine ⟨⟨_, _, rfl, by simp⟩, fun token rest _ _ => ?_⟩
    rw [Gives, ← bind_pure identifier]
    refine .named fun _ => ?_
    exact .pure ⟨rfl, rfl⟩
  exact separated_gives_map (by simp) reads fits fits

/-- An external declaration is read behind its keyword. -/
theorem external_gives (name : Located String) (kind : ExternalKind) (rest : List Token) :
    Gives external (externalTokens kind ++ .id name.value :: .punct .semicolon :: rest)
      (fun found => found.bare = (Item.external name kind).bare) rest := by
  -- The word of a function tells which of the two is declared.
  rw [Gives, external]
  refine .peek ?_ (.inr (by simp))
  intro token others same
  cases kind with
  | function =>
    cases same
    simp only [if_pos, pure_bind]
    refine .next ?_ (.inr (by simp [externalTokens]))
    rintro _ _ _ ⟨⟩
    refine .named fun _ => ?_
    refine .marked ?_
    exact .pure ⟨rfl, rfl⟩
  | data type volatile =>
    -- It starts with the mark of volatile storage or with the type.
    have other : token ≠ .keyword .function := by
      cases volatile <;> cases same <;> simp
    simp only [if_neg other, pure_bind, externalTokens, List.append_assoc, List.cons_append,
      List.nil_append]
    refine (volatileMark_gives volatile type _).bind ?_
    rintro _ rfl
    refine .typed fun _ => ?_
    refine .named fun _ => ?_
    refine .marked ?_
    exact .pure ⟨rfl, rfl⟩

/-- A function is read behind its keyword. -/
theorem function_gives (name : Located String) (parameters : List Parameter)
    (returns : Option (Located IntType)) (inner : written.Spelled true tokens)
    (short :
      (parenthesized (commas (parameters.map Parameter.tokens)) ++ returnTokens returns ++ tokens
      ++ rest).length ≤ budget) :
    Gives (function budget)
      (.id name.value :: (parenthesized (commas (parameters.map Parameter.tokens)) ++
        returnTokens returns ++ tokens ++ rest))
      (fun found => found.bare = (Ast.Function.mk name parameters returns written).bare) rest := by
  simp only [parenthesized, List.cons_append, List.append_assoc, List.nil_append] at short ⊢
  rw [Gives, function]
  refine .named fun _ => ?_
  refine .marked ?_
  refine (parameters_give parameters (by simp at short ⊢; omega)).bind fun found same => ?_
  -- The body starts with a brace, so it is told apart from a type.
  have fits : (tokens ++ rest).length ≤ budget := by simp at short ⊢; omega
  refine .peek ?_ (.inr (by cases inner; simp [braced]))
  intro token others begins
  cases returns with
  | none =>
    have other : token ≠ .punct .arrow := by cases inner; cases begins; simp
    simp only [if_neg other, pure_bind]
    refine (body_gives inner fits).bind fun body same' => ?_
    exact .pure ⟨by simp [Ast.Function.bare, Located.bare, same, same'], rfl⟩
  | some type =>
    cases begins
    simp only [if_pos, map_eq_pure_bind, bind_assoc, pure_bind]
    refine .mark ?_ (.inr (by simp [returnTokens]))
    rintro _ ⟨⟩
    refine .typed fun _ => ?_
    refine (body_gives inner fits).bind fun body same' => ?_
    exact .pure ⟨by simp [Ast.Function.bare, Located.bare, same, same'], rfl⟩

/-- A hook is read behind the words that say when it runs. -/
theorem hook_gives (name : Located String) (kind : HookKind) (inner : written.Spelled true tokens)
    (short : (tokens ++ rest).length ≤ budget) :
    Gives (hook kind budget) (.id name.value :: (tokens ++ rest))
      (fun found => found.bare = (Item.hook name kind written).bare) rest := by
  -- Its words were taken before; the name and the body are left.
  rw [Gives, hook]
  refine .named fun _ => ?_
  refine (body_gives inner short).bind fun body same => ?_
  exact .pure ⟨by simp [Item.bare, Located.bare, same], rfl⟩

/-- An item that is spelled is read. -/
theorem item_gives {written : Item} (spelled : written.Spelled true tokens)
    (short : (tokens ++ rest).length ≤ budget) :
    Gives (item budget) (tokens ++ rest) (fun found => found.bare = written.bare) rest := by
  -- Each kind of item has a first word of its own.
  rw [Gives, item]
  cases spelled with
  | header =>
    refine .taken fun _ => ?_
    refine .taken fun _ => ?_
    refine .marked ?_
    exact .pure ⟨rfl, rfl⟩
  | external =>
    simp only [List.cons_append, List.append_assoc, List.nil_append]
    refine .taken fun _ => ?_
    exact external_gives _ _ rest
  | static declared =>
    refine .taken fun _ => ?_
    refine (staticDecl_gives declared (by simp at short ⊢; omega)).bind fun decl same => ?_
    exact .pure ⟨by simp [Item.bare, same], rfl⟩
  | function inner =>
    refine .taken fun _ => ?_
    refine (function_gives _ _ _ inner (by simp at short ⊢; omega)).bind fun function same => ?_
    exact .pure ⟨by simp [Item.bare, same], rfl⟩
  | thread inner =>
    refine .taken fun _ => ?_
    refine .named fun _ => ?_
    refine (body_gives inner (by simp at short ⊢; omega)).bind fun body same => ?_
    exact .pure ⟨by simp [Item.bare, Located.bare, same], rfl⟩
  | hook occasion inner =>
    cases occasion with
    | init | runnable =>
      refine .taken fun _ => ?_
      exact hook_gives _ _ inner (by simp at short ⊢; omega)
    | every named =>
      refine .taken fun _ => ?_
      refine .named fun _ => ?_
      simp only [Interval.ofName?_eq_some.mpr named]
      exact hook_gives _ _ inner (by simp at short ⊢; omega)
  | entry inner =>
    refine .taken fun _ => ?_
    refine (body_gives inner (by simp at short ⊢; omega)).bind fun body same => ?_
    exact .pure ⟨by simp [Item.bare, same], rfl⟩
  | @useReg path group named =>
    simp only [List.cons_append, List.append_assoc, List.nil_append] at short ⊢
    refine .taken fun _ => ?_
    refine (path_gives named (by cases group <;> simp [optionalNameTokens])
      (by simp at short ⊢; omega)).bind fun found same => ?_
    refine (optionalName_gives group rest).bind fun name same' => ?_
    refine .marked ?_
    exact .pure ⟨by simp [Item.bare, Located.bare, same, same'], rfl⟩
  | @tune path flags named flagged =>
    simp only [List.cons_append, List.append_assoc, List.nil_append] at short ⊢
    refine .taken fun _ => ?_
    -- Behind the path stands the first flag or the semicolon.
    have other : (commas (flags.map fun flag => [.id flag.value]) ++ .punct .semicolon ::
        rest).head? ≠ some (.punct .period) := by
      cases flags with
      | nil => simp
      | cons flag flags =>
        obtain ⟨tail, whole⟩ := exists_commas_cons [.id flag.value]
          (flags.map fun flag => [.id flag.value])
        simp [whole]
    refine (path_gives named other (by simp at short ⊢; omega)).bind fun found same => ?_
    refine (flags_give flags (by simp at short ⊢; omega)).bind fun names same' => ?_
    exact .pure ⟨by simp [Item.bare, Located.bare, same, same'], rfl⟩
  | cflags =>
    simp only [List.cons_append, List.append_assoc, List.nil_append] at short ⊢
    refine .taken fun _ => ?_
    refine .named fun _ => ?_
    refine (optionalName_gives _ rest).bind fun profile same => ?_
    refine .marked ?_
    exact .pure ⟨by simp [Item.bare, Located.bare, same], rfl⟩

/-- Items are read one by one, up to the end of the tokens. -/
theorem items_give {pieces : List (Item × List Token)}
    (spelled : ∀ piece ∈ pieces, piece.1.Spelled true piece.2)
    (short : (pieces.flatMap Prod.snd).length ≤ budget) :
    Gives (items budget) (pieces.flatMap Prod.snd)
      (fun found => found.map Item.bare = (pieces.map Prod.fst).map Item.bare) [] := by
  -- By induction on the items, each of which takes a token of the budget.
  induction pieces generalizing budget with
  | nil =>
    cases budget with
    | zero => exact .pure ⟨rfl, rfl⟩
    | succ budget =>
      rw [Gives, items]
      exact .peek? (.pure ⟨rfl, rfl⟩)
  | cons piece pieces ih =>
    obtain ⟨first, others⟩ := List.forall_mem_cons.mp spelled
    rw [List.flatMap_cons] at short ⊢
    have some := List.length_pos_iff.mpr first.ne_nil
    obtain ⟨budget, rfl⟩ := Nat.exists_eq_add_one_of_ne_zero (n := budget) (by simp at short; omega)
    rw [Gives, items]
    refine .peek? ?_
    -- An item has a token, so this is not the end.
    split
    case h_1 none => exact absurd none (by simp [first.ne_nil])
    case h_2 =>
      refine (item_gives first short).bind fun found same => ?_
      refine (ih others (by simp at short ⊢; omega)).bind fun founds sames => ?_
      exact .pure ⟨by simpa using ⟨same, by simpa using sames⟩, rfl⟩

end Parser

/-- Tokens that spell a description are all read, and give its items up to places. -/
theorem Ast.Description.items_of_spelled {description : Description} {tokens : List (Located Token)}
    (spelled : description.Spelled true (tokens.map Located.value)) (start : Location) :
    ∃ items last, (Parser.items tokens.length).run ⟨tokens, start⟩ = .ok (items, ⟨[], last⟩) ∧
      items.map Item.bare = description.items.map Item.bare := by
  generalize same : tokens.map Located.value = values at spelled
  obtain @⟨last, pieces, inner⟩ := spelled
  -- The budget is the number of all tokens, and the spelling has no others.
  have enough : (pieces.flatMap Prod.snd).length ≤ tokens.length := by simp [← same]
  have gives := Parser.items_give inner enough
  rw [← same] at gives
  exact gives.run start

end Coro
