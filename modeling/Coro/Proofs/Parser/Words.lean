import Coro.Proofs.Compilation
import Coro.Proofs.Parser.Soundness.Item
import Coro.Proofs.Resolution.Uniqueness
import Coro.Proofs.Token.Coverage

/-!
Every name that a description declares is a word of its text.

Only the reading of a word makes an identifier, and what is declared is spelled by identifiers.
-/

namespace Coro

variable {source : Source}

section Lexing

/-- All identifiers of a text are words. -/
theorem lexFrom_worded (damaged : Bool) (position : Position) (text : List Char) :
    ∀ token, .ok token ∈ lexFrom damaged position text → token.value.Worded := by
  fun_induction lexFrom damaged position text with
  | case1 => simp
  | case2 => simp
  | case3 _ _ _ _ ih => exact ih
  | case4 _ _ _ _ _ ih => exact ih
  | case5 => simp
  | case6 _ _ _ _ _ _ _ _ _ ih => exact ih
  | case7 position c rest _ _ _ reading stop token read ih =>
    intro found member
    rcases List.mem_cons.mp member with same | later
    · cases same
      exact (readToken_heeds c rest).worded read
    · exact ih found later
  | case8 position c rest _ _ _ reading stop error read ih =>
    intro found member
    rcases List.mem_cons.mp member with same | later
    · cases same
    · exact ih found later

theorem Source.tokens_worded {source : Source} {tokens : List (Located Token)}
    (lexed : source.tokens = .ok tokens) : ∀ token ∈ tokens, token.value.Worded := by
  intro token member
  refine lexFrom_worded _ _ _ token (?_ : _ ∈ source.lex)
  rw [lex_of_tokens lexed]
  exact List.mem_map_of_mem member

end Lexing

namespace Ast

variable {loose : Bool} {tokens : List Token} {fine : String → Prop} {parameters : List Parameter}

/-- The names among tokens are of some kind. -/
def Names (fine : String → Prop) (tokens : List Token) : Prop :=
  ∀ name, .id name ∈ tokens → fine name

theorem Names.subset {some : List Token} (names : Names fine tokens) (within : some ⊆ tokens) :
    Names fine some :=
  fun name member => names name (within member)

/-- All variables that statements declare have names of some kind. -/
def Statement.DeclaresOnly (fine : String → Prop) (statements : List Statement) : Prop :=
  ∀ name ∈ Mention.declared (mentionsAll statements), fine name.value

theorem Mention.declared_append {α β : Type} (front back : List (Coro.Mention α β)) :
    Mention.declared (front ++ back) = Mention.declared front ++ Mention.declared back := by
  induction front with
  | nil => rfl
  | cons first rest ih => cases first <;> simp [Mention.declared, ih]

@[simp] theorem Mention.declared_uses {α β : Type} (used : List α) :
    Mention.declared (used.map (Coro.Mention.use (β := β))) = [] := by
  induction used with
  | nil => rfl
  | cons first rest ih => exact ih

theorem Statement.declaresOnly_cons {first : Statement} {rest : List Statement} :
    DeclaresOnly fine (first :: rest) ↔ DeclaresOnly fine [first] ∧ DeclaresOnly fine rest := by
  simp only [DeclaresOnly, mentionsAll, List.append_nil, Mention.declared_append,
    List.forall_mem_append]

/-- Statements in a row declare names of some kind, as each of them does. -/
theorem Statement.declaresOnly_pieces {pieces : List (Statement × List Token)}
    (each : ∀ piece ∈ pieces, Names fine piece.2 → DeclaresOnly fine [piece.1])
    (names : Names fine (pieces.flatMap Prod.snd)) : DeclaresOnly fine (pieces.map Prod.fst) := by
  induction pieces with
  | nil => simp [DeclaresOnly, mentionsAll, Mention.declared]
  | cons piece rest ih =>
    obtain ⟨first, others⟩ := List.forall_mem_cons.mp each
    rw [List.flatMap_cons] at names
    exact declaresOnly_cons.mpr ⟨first (names.subset (List.subset_append_left _ _)),
      ih others (names.subset (List.subset_append_right _ _))⟩

/-- What a statement declares is named by its tokens. -/
theorem Statement.Spelled.declares {statement : Statement} (spelled : statement.Spelled loose tokens)
    (names : Names fine tokens) : DeclaresOnly fine [statement] := by
  have inside {tokens : List Token} : tokens ⊆ braced tokens := fun _ member => by
    simp [braced, member]
  -- Only the declaration of a variable names one, and blocks pass on what their statements do.
  simp only [DeclaresOnly, mentionsAll, List.append_nil]
  induction spelled with
  | letVar =>
    simp only [mentions, Mention.declared_append, Mention.declared_uses, Mention.declared,
      List.nil_append, List.forall_mem_singleton]
    exact names _ (by simp)
  | ifThen _ _ ih =>
    have taken := declaresOnly_pieces (by simpa [DeclaresOnly, mentionsAll] using ih)
      (names.subset fun _ member => by simp [inside member])
    simpa [mentions, mentionsAll, Mention.declared_append, Mention.declared] using! taken
  | ifElse _ _ _ ih ih' =>
    have taken := declaresOnly_pieces (by simpa [DeclaresOnly, mentionsAll] using ih)
      (names.subset fun _ member => by simp [inside member])
    have otherwise := declaresOnly_pieces (by simpa [DeclaresOnly, mentionsAll] using ih')
      (names.subset fun _ member => by simp [inside member])
    simpa [mentions, Mention.declared_append] using List.forall_mem_append.mpr ⟨taken, otherwise⟩
  | elseIf _ _ _ ih chain =>
    have taken := declaresOnly_pieces (by simpa [DeclaresOnly, mentionsAll] using ih)
      (names.subset fun _ member => by simp [inside member])
    have otherwise := chain (names.subset fun _ member => by grind)
    simpa [mentions, mentionsAll, Mention.declared_append] using
      List.forall_mem_append.mpr ⟨taken, otherwise⟩
  | whileLoop _ _ ih | loop _ ih =>
    have body := declaresOnly_pieces (by simpa [DeclaresOnly, mentionsAll] using ih)
      (names.subset fun _ member => by simp [inside member])
    simpa [mentions, Mention.declared_append] using! body
  | assign => simp only [mentions, Mention.declared_uses, List.not_mem_nil, false_imp_iff, implies_true]
  | _ => simp [mentions, Mention.declared]

theorem StaticDecl.Spelled.declares {decl : StaticDecl} (spelled : decl.Spelled tokens)
    (names : Names fine tokens) : fine decl.name.value := by
  cases spelled
  exact names _ (by simp)

/-- Parameters are named by tokens between commas. -/
theorem Parameter.declares (names : Names fine (commas (parameters.map Parameter.tokens))) :
    ∀ parameter ∈ parameters, fine parameter.name.value := by
  induction parameters with
  | nil => simp
  | cons parameter rest ih =>
    cases rest with
    | nil => simpa using names _ (by simp [Parameter.tokens])
    | cons second rest =>
      rw [List.map_cons, commas_cons (by simp)] at names
      exact List.forall_mem_cons.mpr ⟨names _ (by simp [Parameter.tokens]),
        ih (names.subset fun _ member => by grind)⟩

/-- A body declares nothing but names of some kind. -/
def Region.DeclaresOnly (fine : String → Prop) (region : Region) : Prop :=
  ∀ name ∈ region.full.names, fine name.value

/-- A coroutine has a name of some kind, and so has all that it declares. -/
def Coroutine.DeclaresOnly (fine : String → Prop) (coroutine : Coroutine) : Prop :=
  fine coroutine.name.value ∧
    ∀ outer path, ∀ region ∈ coroutine.regions outer path, region.DeclaresOnly fine

/-- All that a body declares has names of some kind. -/
structure Body.DeclaresOnly (fine : String → Prop) (body : Body) : Prop where
  statics : ∀ decl ∈ body.statics, fine decl.name.value
  subroutines : ∀ coroutine ∈ body.subroutines, coroutine.DeclaresOnly fine
  statements : Statement.DeclaresOnly fine body.statements

/-- All that an item declares has names of some kind. -/
def Item.DeclaresOnly (fine : String → Prop) (item : Item) : Prop :=
  (∀ name ∈ item.name?, fine name.value) ∧
    ∀ globals, ∀ region ∈ item.regions globals, region.DeclaresOnly fine

theorem Coroutine.mem_regionsAll {outer : List Layer} {path : Path} {coroutines : List Coroutine}
    {region : Region} (member : region ∈ Coroutine.regionsAll outer path coroutines) :
    ∃ coroutine ∈ coroutines,
      region ∈ coroutine.regions outer (path.member coroutine.name.value) := by
  induction coroutines with
  | nil => cases member
  | cons first rest ih =>
    rcases List.mem_append.mp member with here | later
    · exact ⟨first, List.mem_cons_self, here⟩
    · obtain ⟨coroutine, listed, inside⟩ := ih later
      exact ⟨coroutine, List.mem_cons_of_mem _ listed, inside⟩

/-- The layer of a body has the names of its parameters and those that the body declares. -/
theorem Body.DeclaresOnly.region {body : Body} (only : body.DeclaresOnly fine)
    (given : ∀ parameter ∈ parameters, fine parameter.name.value)
    {subroutines : List Coroutine} (inner : subroutines ⊆ body.subroutines) (path : Path)
    (outer : List Layer) : Region.DeclaresOnly fine
      ⟨layer path parameters body.statics subroutines, outer, body.statements⟩ := by
  intro name member
  simp only [Region.full, Layer.add, layer, Region.mentions, List.mem_append, List.mem_map]
    at member
  obtain ((⟨parameter, listed, rfl⟩ | ⟨decl, listed, rfl⟩) | ⟨coroutine, listed, rfl⟩) | stated :=
    member
  · exact given parameter listed
  · exact only.statics decl listed
  · exact (only.subroutines coroutine (inner listed)).1
  · exact only.statements name stated

/-- A coroutine declares what its body does. -/
theorem Body.DeclaresOnly.coroutine {body : Body} (only : body.DeclaresOnly fine)
    {name : Located String} (right : fine name.value)
    (given : ∀ parameter ∈ parameters, fine parameter.name.value) :
    Coroutine.DeclaresOnly fine
      ⟨name, parameters, body.statics, body.subroutines, body.statements⟩ := by
  refine ⟨right, fun outer path region member => ?_⟩
  rcases List.mem_cons.mp member with rfl | inside
  · exact only.region given (List.Subset.refl _) path outer
  · obtain ⟨coroutine, listed, found⟩ := Coroutine.mem_regionsAll inside
    exact (only.subroutines coroutine listed).2 _ _ region found

/-- All that a member of a body declares has names of some kind. -/
def Member.DeclaresOnly (fine : String → Prop) : Member → Prop
  | .static decl => fine decl.name.value
  | .subroutine written => written.DeclaresOnly fine
  | .statement written => Statement.DeclaresOnly fine [written]

/-- A body declares what its members do. -/
theorem Body.ofMembers_declares {members : List Member}
    (each : ∀ member ∈ members, member.DeclaresOnly fine) :
    (Body.ofMembers members).DeclaresOnly fine := by
  induction members with
  | nil =>
    constructor <;>
    simp [ofMembers, Statement.DeclaresOnly, Statement.mentionsAll, Mention.declared]
  | cons member members ih =>
    obtain ⟨first, others⟩ := List.forall_mem_cons.mp each
    obtain ⟨statics, subroutines, statements⟩ := ih others
    cases member with
    | static decl => exact ⟨List.forall_mem_cons.mpr ⟨first, statics⟩, subroutines, statements⟩
    | subroutine written =>
      exact ⟨statics, List.forall_mem_cons.mpr ⟨first, subroutines⟩, statements⟩
    | statement written =>
      exact ⟨statics, subroutines, Statement.declaresOnly_cons.mpr ⟨first, statements⟩⟩

/-- What a member of a body declares is named by its tokens. -/
theorem Member.Spelled.declares {member : Member} (spelled : member.Spelled loose tokens)
    (names : Names fine tokens) : member.DeclaresOnly fine := by
  induction spelled with
  | static declared => exact declared.declares (names.subset (List.subset_cons_self _ _))
  | @subroutine name parameters tokens pieces given inner ih =>
    have body : (Body.ofMembers (pieces.map Prod.fst)).DeclaresOnly fine := by
      refine Body.ofMembers_declares (List.forall_mem_map.mpr fun piece member => ?_)
      refine ih piece member (names.subset fun _ found => ?_)
      simp [braced]
      grind
    refine body.coroutine (names _ (by simp)) ?_
    cases given with
    | none => simp
    | some => exact Parameter.declares (names.subset fun _ member => by simp [parenthesized, member])
  | statement stated => exact stated.declares names

theorem Body.Spelled.declares {body : Body} (spelled : body.Spelled loose tokens)
    (names : Names fine tokens) : body.DeclaresOnly fine := by
  obtain @⟨pieces, inner⟩ := spelled
  refine Body.ofMembers_declares (List.forall_mem_map.mpr fun piece member => ?_)
  refine (inner piece member).declares (names.subset fun _ found => ?_)
  simp [braced]
  grind

/-- So is what an item declares. -/
theorem Item.Spelled.declares {item : Item} (spelled : item.Spelled loose tokens)
    (names : Names fine tokens) : item.DeclaresOnly fine := by
  have nothing : ∀ parameter ∈ ([] : List Parameter), fine parameter.name.value := by simp
  cases spelled with
  | external => exact ⟨by simpa [name?] using names _ (by simp), by simp [regions]⟩
  | static declared =>
    have named := declared.declares (names.subset (List.subset_cons_self _ _))
    exact ⟨by simpa [name?] using named, by simp [regions]⟩
  | function inner =>
    have body := inner.declares (names.subset fun _ member => by simp [member])
    refine ⟨by simpa [name?] using names _ (by simp), fun globals => List.forall_mem_singleton.mpr
      (body.region (Parameter.declares ?_) (List.nil_subset _) _ _)⟩
    exact names.subset fun _ member => by simp [parenthesized, member]
  | @thread name body _ inner =>
    have only := inner.declares (names.subset fun _ member => by simp [member])
    have named : fine name.value := names _ (by simp)
    exact ⟨by simpa [name?] using! named, fun globals => (only.coroutine named nothing).2 _ _⟩
  | hook _ inner =>
    have body := inner.declares (names.subset fun _ member => by simp [member])
    exact ⟨by simpa [name?] using names _ (by simp), fun globals => List.forall_mem_singleton.mpr
      (body.region nothing (List.nil_subset _) _ _)⟩
  | entry inner =>
    have body := inner.declares (names.subset (List.subset_cons_self _ _))
    exact ⟨by simp [name?], fun globals => List.forall_mem_singleton.mpr
      (body.region nothing (List.nil_subset _) _ _)⟩
  | _ => exact ⟨by simp [name?], by simp [regions]⟩

end Ast

/-- Every name that a description declares is a word. -/
theorem Source.parse_words {description : Ast.Description}
    (parsed : source.parse = .ok description) :
    ∀ name, description.Declares name → IsWord name := by
  simp only [Source.parse, bind_eq_ok, mapError_eq_ok] at parsed
  obtain ⟨tokens, lexed, read⟩ := parsed
  have spelled := Ast.Description.parse_spelled read
  have names : Ast.Names IsWord (tokens.map Located.value) := by
    intro name member
    obtain ⟨token, found, same⟩ := List.mem_map.mp member
    exact tokens_worded lexed token found name same
  have items : ∀ item ∈ description.items, item.DeclaresOnly IsWord := by
    generalize tokens.map Located.value = values at spelled names
    obtain @⟨last, pieces, inner⟩ := spelled
    refine List.forall_mem_map.mpr fun piece member => ?_
    exact (inner piece member).declares (names.subset fun token found =>
      List.mem_flatMap.mpr ⟨piece, member, found⟩)
  -- A name stands on the top level, or in the layer of a body.
  rintro name ⟨layer, member, inside⟩
  obtain ⟨declared, listed, rfl⟩ := List.mem_map.mp inside
  rcases List.mem_cons.mp member with rfl | body
  · obtain ⟨item, there, named⟩ := List.mem_filterMap.mp listed
    exact (items item there).1 declared named
  · obtain ⟨region, found, rfl⟩ := List.mem_map.mp body
    obtain ⟨item, there, within⟩ := List.mem_flatMap.mp found
    exact (items item there).2 _ region within declared listed

theorem Source.analyze_named {resolved : Resolved}
    (analyzed : source.analyze = .ok resolved) : resolved.model.Named IsWord := by
  obtain ⟨description, parsed, meant⟩ := analyze_eq_ok.mp analyzed
  exact (Ast.Description.resolve_named meant).imp (parse_words parsed)

/-- A linked program is made of a well-formed model in which all names are words. -/
theorem Source.link_named {program : Program} {warnings : List (Located Warning)}
    (linked : source.link = .ok (program, warnings)) :
    ∃ model : Model, model.Named IsWord ∧ model.WellFormed ∧ model.LowersTo program := by
  obtain ⟨description, resolved, parsed, meant, lowered, -⟩ := link_eq_ok linked
  obtain ⟨tables, complete, known⟩ := Ast.Description.resolve_tables meant
  exact ⟨resolved.model, analyze_named (analyze_eq_ok.mpr ⟨description, parsed, meant⟩),
    Tables.toModel?_wellFormed complete known, Model.lower_lowersTo lowered⟩

end Coro
