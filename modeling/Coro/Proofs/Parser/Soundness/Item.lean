import Coro.Parser.Item
import Coro.Proofs.Parser.Soundness.Statement

/-! Only tokens that spell declarations and hints are read as them. -/

namespace Coro

namespace Parser

open Ast

variable (budget : Nat) (before : List Token)

/-! ## Declarations -/

/-- The mark of volatile storage is spelled by what is read as it. -/
theorem volatileMark_takes :
    Takes volatileMark before fun volatile tokens => tokens = volatileTokens volatile := by
  -- Any other token belongs to the type that follows.
  rw [Takes, volatileMark]
  refine .peek ?_ free
  rintro token others rfl
  split
  case isTrue marked =>
    subst marked
    refine .next ?_ free
    rintro _ _ _ ⟨⟩
    exact .pure ⟨[_], rfl, rfl⟩
  case isFalse => exact .pure ⟨[], rfl, rfl⟩

/-- So is a static variable behind its keyword. -/
theorem staticDecl_takes (short : before.length ≤ budget) :
    Takes (staticDecl budget) before StaticDecl.Spelled := by
  -- Its parts stand one behind the other, each spelled by what is read as it.
  rw [Takes, staticDecl]
  refine (volatileMark_takes before).bind ?_
  rintro volatile _ ⟨_, rfl, rfl⟩
  refine .type ?_ free
  rintro type _ others rfl
  refine .identifier ?_ free
  rintro name _ others rfl
  refine (length_takes others).bind ?_
  rintro length others ⟨_, rfl, rfl⟩
  refine (initializer_takes budget others (by simp at short; omega)).bind ?_
  rintro value _ ⟨tokens, rfl, given⟩
  refine .mark ?_ free
  rintro after rfl
  exact .pure ⟨_, by simp, .intro given⟩

theorem parameter_takes :
    Takes parameter before fun parameter tokens => tokens = parameter.tokens := by
  -- A type and a name, and nothing between them.
  rw [Takes, parameter]
  refine .type ?_ free
  rintro type _ others rfl
  refine .identifier ?_ free
  rintro name _ after rfl
  exact .pure ⟨[_, _], rfl, rfl⟩

/-- So are parameters, through the parenthesis that closes their list. -/
theorem parameters_take :
    Reads True (separated parameter (.punct .closeParen) budget) before fun parameters after =>
      before = commas (parameters.map Parameter.tokens) ++ .punct .closeParen :: after := by
  -- A parameter takes no token of those behind it, so any bound will do for the list.
  refine (separated_takes (fun tokens (_ : tokens.length ≤ before.length) => parameter_takes tokens)
    _ budget before (Nat.le_refl _)).weaken ?_
  rintro _ after ⟨pieces, rfl, rfl, all⟩
  -- Every parameter has one spelling only.
  have same : pieces.map Prod.snd = (pieces.map Prod.fst).map Parameter.tokens := by
    simpa using all
  rw [same]

/-- So are parameters that may be left out. -/
theorem optionalParameters_take :
    Takes (optionalList parameter budget) before Parameters.Spelled := by
  -- A parenthesis tells that a list follows, which may have no entry.
  rw [Takes, optionalList]
  refine .peek ?_ free
  rintro token others rfl
  split
  case isTrue =>
    refine .mark ?_ free
    rintro others ⟨⟩
    refine (parameters_take budget others).weaken ?_
    rintro parameters after rfl
    exact ⟨_, by simp [parenthesized], .some⟩
  case isFalse => exact .pure ⟨[], rfl, .none⟩

/-- What the rest of a body takes spells its members, through the brace that closes it. -/
theorem bodyRest_takes (short : before.length ≤ budget) :
    Reads True (bodyRest budget) before fun body after =>
      ∃ pieces : List (Member × List Token), body = .ofMembers (pieces.map Prod.fst) ∧
        before = pieces.flatMap Prod.snd ++ .punct .closeCurly :: after ∧
        ∀ piece ∈ pieces, piece.1.Spelled true piece.2 := by
  -- By induction on the tokens to come: each member takes at least one of them.
  induction budget generalizing before with
  | zero => exact .fail trivial _
  | succ budget ih =>
    rw [bodyRest]
    refine .peek ?_ free
    rintro token others rfl
    -- The cases are the end of the body, its declarations and its statements.
    split
    case h_1 =>
      refine .next ?_ free
      rintro _ _ _ ⟨⟩
      exact .pure ⟨[], rfl, rfl, by simp⟩
    case h_2 =>
      refine .next ?_ free
      rintro _ _ _ ⟨⟩
      refine (staticDecl_takes budget others (by simpa using short)).bind ?_
      rintro decl behind ⟨tokens, rfl, declared⟩
      refine (ih behind (by simp at short; omega)).bind ?_
      rintro _ after ⟨pieces, rfl, rfl, all⟩
      exact .pure ⟨(.static decl, .keyword .static :: tokens) :: pieces, rfl, by simp,
        List.forall_mem_cons.mpr ⟨.static declared, all⟩⟩
    case h_3 =>
      refine .next ?_ free
      rintro _ _ _ ⟨⟩
      refine .identifier ?_ free
      rintro name place others rfl
      refine (optionalParameters_take budget others).bind ?_
      rintro parameters _ ⟨tokens, rfl, given⟩
      refine .mark ?_ free
      rintro others rfl
      -- A subroutine has a body of its own, which ends before the rest of this one.
      refine (ih others (by simp at short; omega)).bind ?_
      rintro _ behind ⟨members, rfl, rfl, inner⟩
      refine (ih behind (by simp at short; omega)).bind ?_
      rintro _ after ⟨pieces, rfl, rfl, all⟩
      let read := Ast.Coroutine.ofBody ⟨name, place⟩ parameters (.ofMembers (members.map Prod.fst))
      let taken := .keyword .subroutine :: .id name :: (tokens ++ braced (members.flatMap Prod.snd))
      exact .pure ⟨(.subroutine read, taken) :: pieces, rfl, by simp [taken, braced],
        List.forall_mem_cons.mpr ⟨.subroutine given inner, all⟩⟩
    case h_4 =>
      refine (statement_takes budget _ short).bind ?_
      rintro first behind ⟨tokens, same, spelled⟩
      rw [same] at short ⊢
      -- A statement that were spelled by nothing would leave the budget as it is.
      have some := List.length_pos_iff.mpr spelled.ne_nil
      refine (ih behind (by simp at short; omega)).bind ?_
      rintro _ after ⟨pieces, rfl, rfl, all⟩
      exact .pure ⟨(.statement first, tokens) :: pieces, rfl, by simp,
        List.forall_mem_cons.mpr ⟨.statement spelled, all⟩⟩

/-- A body is spelled by what is read as it. -/
theorem body_takes (short : before.length ≤ budget) :
    Takes (body budget) before (Ast.Body.Spelled true) := by
  -- Behind the opening brace, a body is the rest of one.
  rw [Takes, body]
  refine .mark ?_ free
  rintro others rfl
  refine (bodyRest_takes budget others (by simp at short; omega)).weaken ?_
  rintro _ after ⟨pieces, rfl, rfl, all⟩
  exact ⟨_, by simp [braced], .intro all⟩

/-! ## Items -/

/-- What the rest of a path takes spells its names, each behind a period. -/
theorem pathRest_takes :
    Takes (pathRest budget) before fun names tokens =>
      tokens = names.flatMap fun name => [.punct .period, .id name] := by
  -- Every further name has a period before it; without a period the path has ended.
  induction budget generalizing before with
  | zero => exact .pure ⟨[], rfl, rfl⟩
  | succ budget ih =>
    rw [Takes, pathRest]
    refine .sees ?_
    split
    case isTrue =>
      refine .mark ?_ free
      rintro others rfl
      refine .identifier ?_ free
      rintro name _ others rfl
      refine (ih others).bind ?_
      rintro names after ⟨_, rfl, rfl⟩
      exact .pure ⟨_, by simp, rfl⟩
    case isFalse => exact .pure ⟨[], rfl, rfl⟩

/-- A path is spelled by what is read as it, and has a name. -/
theorem path_takes :
    Takes (path budget) before fun path tokens =>
      path.value.names ≠ [] ∧ tokens = pathTokens path.value := by
  -- The first name is always there, so that no path is empty.
  rw [Takes, path]
  refine .identifier ?_ free
  rintro first _ others rfl
  refine (pathRest_takes budget others).bind ?_
  rintro names after ⟨_, rfl, rfl⟩
  exact .spanFrom fun _ => .pure ⟨_, rfl, by simp, (pathTokens_cons first names).symm⟩

/-- A name that may be left out is spelled by what is read as it. -/
theorem optionalName_takes :
    Takes optionalName before fun name tokens => tokens = optionalNameTokens name := by
  -- A semicolon in place of the name tells that it was left out.
  rw [Takes, optionalName]
  refine .peek ?_ free
  rintro token others rfl
  split
  case isTrue => exact .pure ⟨[], rfl, rfl⟩
  case isFalse =>
    refine .identifier ?_ free
    rintro name _ _ ⟨⟩
    exact .pure ⟨[_], rfl, rfl⟩

/-- So are flags, through the semicolon that closes their list. -/
theorem flags_take :
    Reads True (separated identifier (.punct .semicolon) budget) before fun flags after =>
      before = commas (flags.map fun flag => [.id flag.value]) ++ .punct .semicolon :: after := by
  -- A flag is a name, and every name has one spelling only.
  have takes : ∀ tokens : List Token, tokens.length ≤ before.length →
      Takes identifier tokens fun name taken => taken = [.id name.value] := by
    intro tokens _
    rw [Takes, ← bind_pure identifier]
    refine .identifier ?_ free
    rintro name _ after rfl
    exact .pure ⟨[_], rfl, rfl⟩
  refine (separated_takes takes _ budget before (Nat.le_refl _)).weaken ?_
  rintro _ after ⟨pieces, rfl, rfl, all⟩
  have same : pieces.map Prod.snd = (pieces.map Prod.fst).map fun flag => [.id flag.value] := by
    simpa using all
  rw [same]

/-- So is an external declaration behind its keyword. -/
theorem external_takes :
    Takes external before fun item tokens =>
      item.Spelled true (.keyword .external :: tokens) := by
  -- Behind the kind of the entity stand its name and a semicolon.
  have ending : ∀ kind after, Takes (do
      let name ← identifier
      mark .semicolon
      return Item.external name kind) after fun item tokens =>
        item.Spelled true (.keyword .external :: (externalTokens kind ++ tokens)) := by
    intro kind after
    refine .identifier ?_ free
    rintro name _ others rfl
    refine .mark ?_ free
    rintro after rfl
    exact .pure ⟨[_, _], rfl, .external⟩
  rw [Takes, external]
  refine .peek ?_ free
  rintro token others rfl
  split
  case isTrue called =>
    subst called
    refine .next ?_ free
    rintro _ _ _ ⟨⟩
    refine (ending .function others).weaken ?_
    rintro item after ⟨tokens, rfl, spelled⟩
    exact ⟨_, rfl, spelled⟩
  case isFalse =>
    simp only [pure_bind]
    refine (volatileMark_takes _).bind ?_
    rintro volatile others ⟨_, same, rfl⟩
    rw [same]
    refine .type ?_ free
    rintro type _ others rfl
    refine (ending (.data type volatile) others).weaken ?_
    rintro item after ⟨tokens, rfl, spelled⟩
    exact ⟨volatileTokens volatile ++ .keyword (.type type) :: tokens, by simp,
      by simpa [externalTokens] using spelled⟩

/-- So is a function behind its keyword. -/
theorem function_takes (short : before.length ≤ budget) :
    Takes (function budget) before fun function tokens =>
      (Item.function function).Spelled true (.keyword .function :: tokens) := by
  -- The list of parameters may be empty, but its parentheses are there.
  rw [Takes, function]
  refine .identifier ?_ free
  rintro name place others rfl
  refine .mark ?_ free
  rintro others rfl
  refine (parameters_take budget others).bind ?_
  rintro parameters others rfl
  -- The body comes last, whether or not a type stands before it.
  have ending : ∀ returns after, after.length ≤ budget → Takes (do
      return Ast.Function.mk ⟨name, place⟩ parameters returns (← body budget)) after
        fun function tokens => (Item.function function).Spelled true
          (.keyword .function :: .id name ::
            (parenthesized (commas (parameters.map Parameter.tokens)) ++ returnTokens returns ++
              tokens)) := by
    intro returns after fits
    refine (body_takes budget after fits).bind ?_
    rintro body _ ⟨tokens, rfl, inner⟩
    exact .pure ⟨tokens, rfl, .function inner⟩
  refine .peek ?_ free
  rintro token more rfl
  split
  case isTrue =>
    refine .mark ?_ free
    rintro _ ⟨⟩
    simp only [map_eq_pure_bind, bind_assoc, pure_bind]
    refine .type ?_ free
    rintro type place others rfl
    refine (ending (some ⟨type, place⟩) others (by simp at short; omega)).weaken ?_
    rintro function after ⟨tokens, rfl, spelled⟩
    exact ⟨_, by simp [parenthesized, returnTokens], spelled⟩
  case isFalse =>
    refine (ending none _ (by simp at short ⊢; omega)).weaken ?_
    rintro function after ⟨tokens, same, spelled⟩
    exact ⟨_, by simp [parenthesized, returnTokens, same], spelled⟩

/-- So is a hook behind the words that say when it runs. -/
theorem hook_takes (kind : HookKind) (short : before.length ≤ budget) :
    Takes (hook kind budget) before fun item tokens =>
      ∀ first, Occasion.Spelled kind first → item.Spelled true (first ++ tokens) := by
  -- The words that say when it runs have been taken before.
  rw [Takes, hook]
  refine .identifier ?_ free
  rintro name _ others rfl
  refine (body_takes budget others (by simp at short; omega)).bind ?_
  rintro body after ⟨tokens, rfl, inner⟩
  exact .pure ⟨.id name :: tokens, rfl, fun first occasion => .hook occasion inner⟩

/-- An item is spelled by what is read as it. -/
theorem item_takes (short : before.length ≤ budget) :
    Takes (item budget) before (Item.Spelled true) := by
  rw [Takes, item]
  refine .next ?_ free
  rintro token place others rfl
  have fewer : others.length ≤ budget := by simp at short; omega
  cases token with
  | keyword word =>
    -- The cases are the keywords that an item can start with.
    cases word with
    | header =>
      refine .next ?_ free
      rintro name _ others rfl
      cases name with
      | str name =>
        refine .mark ?_ free
        rintro after rfl
        exact .pure ⟨[_, _, _], rfl, .header⟩
      | _ => exact .fail trivial _
    | external =>
      refine (external_takes others).weaken ?_
      rintro item after ⟨tokens, rfl, spelled⟩
      exact ⟨_, rfl, spelled⟩
    | static =>
      refine (staticDecl_takes budget others fewer).bind ?_
      rintro decl after ⟨tokens, rfl, declared⟩
      exact .pure ⟨_, rfl, .static declared⟩
    | function =>
      refine (function_takes budget others fewer).bind ?_
      rintro function after ⟨tokens, rfl, spelled⟩
      exact .pure ⟨_, rfl, spelled⟩
    | thread =>
      refine .identifier ?_ free
      rintro name _ others rfl
      refine (body_takes budget others (by simp at fewer; omega)).bind ?_
      rintro body after ⟨tokens, rfl, inner⟩
      exact .pure ⟨_, rfl, .thread inner⟩
    | every =>
      refine .identifier ?_ free
      rintro name _ others rfl
      -- A word that names no interval is an error.
      split
      case h_1 interval named =>
        refine (hook_takes budget others _ (by simp at fewer; omega)).weaken ?_
        rintro item after ⟨tokens, rfl, spelled⟩
        exact ⟨_, rfl, spelled _ (.every (Interval.ofName?_eq_some.mp named))⟩
      case h_2 => exact .throw trivial _
    | init =>
      refine (hook_takes budget others _ fewer).weaken ?_
      rintro item after ⟨tokens, rfl, spelled⟩
      exact ⟨_, rfl, spelled _ .init⟩
    | runnable =>
      refine (hook_takes budget others _ fewer).weaken ?_
      rintro item after ⟨tokens, rfl, spelled⟩
      exact ⟨_, rfl, spelled _ .runnable⟩
    | main =>
      refine (body_takes budget others fewer).bind ?_
      rintro body after ⟨tokens, rfl, inner⟩
      exact .pure ⟨_, rfl, .entry inner⟩
    | useReg =>
      refine (path_takes budget others).bind ?_
      rintro path _ ⟨_, rfl, named, rfl⟩
      refine (optionalName_takes _).bind ?_
      rintro group _ ⟨_, rfl, rfl⟩
      refine .mark ?_ free
      rintro after rfl
      exact .pure ⟨_, by simp, .useReg named⟩
    | tune =>
      refine (path_takes budget others).bind ?_
      rintro path others ⟨_, rfl, named, rfl⟩
      -- The list of flags is read like any other, so it may turn out to be empty.
      refine (flags_take budget others).bind ?_
      rintro flags after rfl
      exact .pure ⟨_, by simp, .tune named (.inl rfl)⟩
    | cflags =>
      refine .identifier ?_ free
      rintro name _ others rfl
      refine (optionalName_takes others).bind ?_
      rintro profile _ ⟨_, rfl, rfl⟩
      refine .mark ?_ free
      rintro after rfl
      exact .pure ⟨_, by simp, .cflags⟩
    | _ => exact .fail trivial _
  | _ => exact .fail trivial _

/-- Items are spelled one behind the other, up to the end of the tokens. -/
theorem items_take (short : before.length ≤ budget) :
    Reads True (items budget) before fun items after =>
      after = [] ∧ ∃ pieces : List (Item × List Token), items = pieces.map Prod.fst ∧
        before = pieces.flatMap Prod.snd ∧ ∀ piece ∈ pieces, piece.1.Spelled true piece.2 := by
  -- By induction on the tokens to come: each item takes at least one of them.
  induction budget generalizing before with
  | zero =>
    obtain rfl : before = [] := by simpa using short
    exact .pure ⟨rfl, [], rfl, rfl, by simp⟩
  | succ budget ih =>
    rw [items]
    refine .peek? ?_
    split
    case h_1 none =>
      obtain rfl : before = [] := by simpa using none
      exact .pure ⟨rfl, [], rfl, rfl, by simp⟩
    case h_2 =>
      refine (item_takes (budget + 1) before short).bind ?_
      rintro first behind ⟨tokens, rfl, spelled⟩
      have some := List.length_pos_iff.mpr spelled.ne_nil
      refine (ih behind (by simp at short; omega)).bind ?_
      rintro _ _ ⟨rfl, pieces, rfl, rfl, all⟩
      exact .pure ⟨rfl, (first, tokens) :: pieces, rfl, by simp,
        List.forall_mem_cons.mpr ⟨spelled, all⟩⟩

end Parser

/-- Tokens are read as a description only if they spell it, and then all of them are. -/
theorem Ast.Description.parse_spelled {start : Location} {tokens : List (Located Token)}
    {description : Description} (parsed : parse start tokens = .ok description) :
    description.Spelled true (tokens.map Located.value) := by
  -- The budget is the number of all tokens, so it never runs out.
  have taken := Parser.items_take tokens.length (tokens.map Located.value) (by simp)
    ⟨tokens, start⟩ rfl
  unfold parse at parsed
  cases outcome : (Parser.items tokens.length).run ⟨tokens, start⟩ with
  | error failure => rw [outcome] at parsed; cases parsed
  | ok result =>
    rw [outcome] at parsed taken
    obtain ⟨-, -, pieces, given, spelled, all⟩ := taken
    obtain rfl : (⟨result.1, result.2.last⟩ : Description) = description := by cases parsed; rfl
    rw [spelled, given]
    exact .intro all

end Coro
