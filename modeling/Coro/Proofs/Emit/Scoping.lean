import Coro.Proofs.Emit.Symbols
import Coro.Proofs.Machine.Bounds

/-!
What the names in a generated function denote.

All local variables of a body are declared at the top of its function, under their own names. So a
name denotes the local variable that has it, wherever it stands in the body, and else what the file
has by this name. Where a body uses something of the file and also declares a local variable of the
same name, the two are taken for each other.
-/

namespace Coro

/-- The variable that an instruction assigns to. -/
def Instr.assigned? : Instr → Option Var
  | .assign place _ _ => some place.var
  | _ => none

namespace Emit

/-- What a name in a function can denote. -/
inductive Referent where
  | localVar (id : LocalId)
  | file (symbol : FileSymbol)
deriving Repr, DecidableEq

namespace Referent

/-- The referent of a variable. -/
def ofVar : Var → Referent
  | .static id => .file (.static id)
  | .localVar id => .localVar id
  | .external id => .file (.external id)

/-- The referent of what is called. -/
def ofCallee : Callee → Referent
  | .function id => .file (.function id)
  | .external id => .file (.external id)

end Referent

/-- What a name denotes in a function with some local variables, which come before the file. -/
def denoted? (program : Program) (locals : List Local) (name : String) : Option Referent :=
  match locals.findIdx? fun known => known.name = name with
  | some id => some (.localVar id)
  | none => ((FileSymbol.all program).find? fun symbol => symbol.text program = name).map .file

/-- The names of these entities denote them, in a function with some local variables. -/
def denoting (program : Program) (locals : List Local) : References where
  var var := denoted? program locals ((Names.ofLocals program.model locals).var var) =
    some (.ofVar var)
  callee callee := denoted? program locals ((Names.ofLocals program.model locals).callee callee) =
    some (.ofCallee callee)
  subroutine _ := True

/-- These entities are local variables, or have a name that no local variable has. -/
def unhidden (program : Program) (locals : List Local) : References where
  var
    | .localVar _ => True
    | var => ∀ known ∈ locals, known.name ≠ (Names.ofLocals program.model locals).var var
  callee callee :=
    ∀ known ∈ locals, known.name ≠ (Names.ofLocals program.model locals).callee callee
  subroutine _ := True

/-- A static variable on the top level, an external entity or a function has a name. -/
def DeclaresGlobally (model : Model) (name : String) : Prop :=
  (∃ storage ∈ model.statics, storage.path = .ofName name) ∨
    (∃ external ∈ model.externals, external.name = name) ∨
    ∃ function ∈ model.functions, function.name = name

instance (model : Model) (name : String) : Decidable (DeclaresGlobally model name) :=
  inferInstanceAs (Decidable (_ ∨ _ ∨ _))

section Names

variable {model : Model} {program : Program} {owner : Owner} {body : Body} {locals : List Local}

/-- The local variables of a function have different names, which can be joined with others. -/
structure Distinct (locals : List Local) : Prop where
  apart : (locals.map Local.name).Nodup
  joinable : ∀ known ∈ locals, Joinable known.name

/-- The local variables of a body have different names. -/
theorem framed_distinct (orderly : model.naming.Orderly IsWord) (lowered : model.LowersTo program)
    (found : program.model.body? owner = some body) : Distinct (body.framed owner) := by
  -- What keeps local variables of coroutines elsewhere changes no body.
  rw [lowered.hoisted, Model.hoist_body?] at found
  have declared : ∀ (id : LocalId) known, body.locals[id]? = some known →
      model.naming.Declares owner known.name (.localVar id) := by
    intro id known listed
    simp [Naming.Declares, Model.naming, found, listed]
  have distinct : Distinct body.locals := by
    refine ⟨nodup_map_of_getElem? fun i j one other left right same => ?_, fun known member => ?_⟩
    · have equal := (orderly.apart owner).unique one.name _ _ (declared i one left)
        (same ▸ declared j other right)
      exact Entity.localVar.inj equal
    · obtain ⟨id, listed⟩ := List.mem_iff_getElem?.mp member
      exact orderly.joinable (declared id known listed)
  -- The function of a coroutine declares none of them.
  cases owner with
  | coroutine id => exact ⟨List.nodup_nil, by simp [Body.framed]⟩
  | _ => exact distinct

theorem denoted?_local (distinct : Distinct locals) {id : LocalId} {known : Local}
    (listed : locals[id]? = some known) :
    denoted? program locals known.name = some (.localVar id) := by
  rw [denoted?, (findIdx?_of_nodup distinct.apart known.name id).mpr ⟨known, listed, rfl⟩]

/-- A name that some local variable has denotes nothing of the file. -/
theorem denoted?_hidden {name : String} {known : Local} (member : known ∈ locals)
    (same : known.name = name) (symbol : FileSymbol) :
    denoted? program locals name ≠ some (.file symbol) := by
  rw [denoted?]
  cases found : locals.findIdx? (fun known => known.name = name) with
  | none =>
    have missing := List.findIdx?_eq_none_iff.mp found known member
    exact absurd same (of_decide_eq_false missing)
  | some id => simp

variable (orderly : model.naming.Orderly IsWord) (lowered : model.LowersTo program)

include orderly lowered

/-- A name that no local variable has denotes what the file has by this name. -/
theorem denoted?_file {symbol : FileSymbol} (listed : symbol ∈ FileSymbol.all program)
    (free : ∀ known ∈ locals, known.name ≠ symbol.text program) :
    denoted? program locals (symbol.text program) = some (.file symbol) := by
  -- The search goes on in the file, where only this symbol is written like that.
  have nowhere : locals.findIdx? (fun known => known.name = symbol.text program) = none :=
    List.findIdx?_eq_none_iff.mpr fun known member => decide_eq_false (free known member)
  rw [denoted?, nowhere]
  cases found : (FileSymbol.all program).find? (fun other => other.text program =
      symbol.text program) with
  | none =>
    have missing := List.find?_eq_none.mp found symbol listed
    exact absurd (decide_eq_true rfl) missing
  | some other =>
    have same : other.text program = symbol.text program := by simpa using List.find?_some found
    rw [FileSymbol.text_inj orderly lowered (List.mem_of_find?_eq_some found) listed same]
    rfl

/-- Something of the file is denoted by its name exactly if no local variable has it. -/
theorem denoted?_file_iff {symbol : FileSymbol} (listed : symbol ∈ FileSymbol.all program) :
    denoted? program locals (symbol.text program) = some (.file symbol) ↔
      ∀ known ∈ locals, known.name ≠ symbol.text program :=
  ⟨fun denotes _ member same => denoted?_hidden member same symbol denotes,
    denoted?_file orderly lowered listed⟩

/-- Whatever a function can refer to is denoted exactly if it is not hidden. -/
theorem denoting_iff_unhidden (distinct : Distinct locals) :
    (∀ var, (program.model.references locals).var var →
      ((denoting program locals).var var ↔ (unhidden program locals).var var)) ∧
    ∀ callee, (program.model.references locals).callee callee →
      ((denoting program locals).callee callee ↔ (unhidden program locals).callee callee) := by
  refine ⟨fun var inside => ?_, fun callee inside => ?_⟩
  · cases var with
    | static id => exact denoted?_file_iff orderly lowered (FileSymbol.static_mem inside)
    | external id => exact denoted?_file_iff orderly lowered (FileSymbol.external_mem inside)
    | localVar id =>
      have listed := List.getElem?_eq_getElem inside
      refine ⟨fun _ => trivial, fun _ => ?_⟩
      simpa [denoting, Names.ofLocals, Referent.ofVar, List.getD_eq_getElem?_getD, listed] using
        denoted?_local distinct listed
  · cases callee with
    | function id => exact denoted?_file_iff orderly lowered (FileSymbol.function_mem inside)
    | external id => exact denoted?_file_iff orderly lowered (FileSymbol.external_mem inside)

/-- Nothing is hidden if no local variable has the name of something global. -/
theorem unhidden_of_not_global (distinct : Distinct locals)
    (apart : ∀ known ∈ locals, ¬ DeclaresGlobally program.model known.name) :
    (program.model.references locals).Within (unhidden program locals) id := by
  have externals : ∀ {id : ExternalId}, id < program.model.externals.length →
      ∀ known ∈ locals, known.name ≠ (program.model.externals.getD id default).name := by
    intro id small known member same
    refine apart known member (.inr (.inl ⟨_, List.getElem_mem small, ?_⟩))
    simpa [small] using same.symm
  refine ⟨fun var inside => ?_, fun callee inside => ?_⟩
  · cases var with
    | localVar id => trivial
    | external id => exact externals inside
    | static id =>
      intro known member same
      -- The symbol of a path that is a single name belongs to the top level.
      have joined := (FileSymbol.static_declared orderly.rooted lowered inside).joined orderly
      have alone : (Path.ofName known.name).Joined :=
        ⟨by simp [Path.ofName], by simpa [Path.ofName] using distinct.joinable known member⟩
      have path := joined.symbol_inj alone
        (by simpa [FileSymbol.path, Names.ofLocals, Path.symbol, Path.ofName] using same.symm)
      refine apart known member (.inl ⟨_, List.getElem_mem inside, ?_⟩)
      have listed := List.getElem?_eq_getElem inside
      simpa [FileSymbol.path, List.getD_eq_getElem?_getD, listed] using path
  · cases callee with
    | external id => exact externals inside
    | function id =>
      intro known member same
      have small : id < program.model.functions.length := inside
      refine apart known member (.inr (.inr ⟨_, List.getElem_mem small, ?_⟩))
      simpa [Names.ofLocals, small] using same.symm

end Names

/-- What is granted exactly where something else is. -/
def agreeing (one other : References) : References where
  var var := one.var var ↔ other.var var
  callee callee := one.callee callee ↔ other.callee callee
  subroutine _ := True

/--
Each name in a generated function denotes what it was written for, unless a local variable hides it.

Only something global can be hidden, by a local variable that its body declares. All other names
denote what they should, and so do all names of a body without such a variable.
-/
theorem names_denote {source : Source} {program : Program} {warnings : List (Located Warning)}
    (linked : source.link = .ok (program, warnings)) {owner : Owner} {body : Body} {code : Code}
    (found : program.model.body? owner = some body) (made : program.code? owner = some code) :
    (∀ instr ∈ code, instr.Refers (agreeing (denoting program (body.framed owner))
      (unhidden program (body.framed owner)))) ∧
    ((∀ known ∈ body.framed owner, ¬ DeclaresGlobally program.model known.name) →
      ∀ instr ∈ code, instr.Refers (denoting program (body.framed owner))) := by
  obtain ⟨model, named, -, lowered⟩ := Source.link_named linked
  obtain ⟨other, same, refers⟩ := (Source.link_closed linked).code owner code made
  obtain rfl := Option.some.inj (found.symm.trans same)
  have distinct := framed_distinct named.orderly lowered found
  -- All that the code refers to is in the tables, so each name is settled by what it stands for.
  obtain ⟨vars, callees⟩ := denoting_iff_unhidden named.orderly lowered distinct
  refine ⟨fun instr member => ?_, fun apart instr member => ?_⟩
  · exact (refers instr member).mono ⟨vars, callees⟩ fun _ _ _ => trivial
  · have clear := unhidden_of_not_global named.orderly lowered distinct apart
    exact (refers instr member).mono
      ⟨fun var inside => (vars var inside).mpr (clear.var var inside),
        fun callee inside => (callees callee inside).mpr (clear.callee callee inside)⟩
      fun _ _ _ => trivial

end Coro.Emit

namespace Coro

/-- A function that sets a static variable, called with a local variable of the entry point. -/
def Source.setting : Source :=
  .ofText "setting" "static u8 x;fn f(u8 y){x=y;}main{let u8 z;f(z);}"

theorem Source.setting_links : ∃ program warnings, setting.link = .ok (program, warnings) ∧
    ∀ known ∈ program.model.entry.locals, ¬ Emit.DeclaresGlobally program.model known.name :=
  setting.links_of_decide (by decide +kernel)

/-- All names in the entry point denote what they were written for. -/
theorem Emit.setting_names_denote : ∃ program warnings,
    Source.setting.link = .ok (program, warnings) ∧
    ∀ instr ∈ program.entry, instr.Refers (denoting program program.model.entry.locals) := by
  obtain ⟨program, warnings, linked, apart⟩ := Source.setting_links
  have entry : program.model.body? .entry =
    some ⟨program.model.entry.locals, 0, program.model.entry.body⟩ := rfl
  exact ⟨program, warnings, linked, (names_denote linked entry rfl).2 apart⟩

/-- The entry point sets a static variable before it declares a local one of the same name. -/
def Source.hiding : Source :=
  .ofText "hiding" "static u8 x;\nmain { x = 1; let u8 x = 2; }"

/-- The static variable that is set is written by a name that denotes the local variable. -/
theorem Emit.hiding_captures : ∃ program warnings,
    Source.hiding.link = .ok (program, warnings) ∧
    program.entry.head?.bind Instr.assigned? = some (.static 0) ∧
    denoted? program program.model.entry.locals
      ((Names.ofLocals program.model program.model.entry.locals).var (.static 0)) =
        some (.localVar 0) ∧
    procedureLines .hosted program entrySignature program.model.entry.locals program.entry =
      ["static void hilos_entry(void)", "\x7b", "\tuint8_t x;", "\tx = 1;", "\tx = 2;", "\x7d",
        ""] :=
  Source.hiding.links_of_decide (by decide +kernel)

end Coro
