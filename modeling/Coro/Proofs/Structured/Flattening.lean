import Coro.Proofs.Model.WellFormed
import Coro.Proofs.Program.Layout
import Coro.Proofs.Structured.Instruction

/-!
Code does what the statements do that it was made from.

The argument is the same whether code is shown to do no more than statements or no less. It is made
once, for every relation between steps and code that agrees with single instructions.
-/

namespace Coro

variable {after inner rest : Code} {head : Label} {fuel label limit rounds : Nat}
  {loop : Option LoopLabels} {σ κ : Type} {actions : Actions σ κ} {code : Code}
  {relates : Nat → BodyStep σ κ (Option Int64) → Code → Prop}

/--
A relation between steps and the rest of some code agrees with every instruction.

The number bounds the instructions that are looked at; some of them are passed at a label.
-/
structure Tracks {σ κ : Type} (actions : Actions σ κ) (code : Code)
    (relates : Nat → BodyStep σ κ (Option Int64) → Code → Prop) : Prop where
  /-- The end of the code leaves the body. -/
  done : ∀ {fuel}, relates fuel (pure none) []
  exhausted : ∀ {rest}, relates 0 (throw .outOfFuel) rest
  less : ∀ {fuel steps rest}, relates (fuel + 1) steps rest → relates fuel steps rest
  instr : ∀ {fuel next rest} {goto : Label → BodyStep σ κ (Option Int64)} (instr : Instr),
    relates fuel next rest →
    (∀ label, instr.target? = some label → relates fuel (goto label) (code.from label)) →
    relates fuel (instr.meaning actions next goto) (instr :: rest)
  label : ∀ {fuel steps rest label}, relates fuel steps rest →
    relates (fuel + 1) steps (.setLabel label :: rest)

namespace Tracks

variable (tracks : Tracks actions code relates) {steps : BodyStep σ κ (Option Int64)}

include tracks

theorem fewer {more : Nat} (fits : fuel ≤ more)
    (related : relates more steps rest) : relates fuel steps rest := by
  induction fits with
  | refl => exact related
  | step _ ih => exact ih (tracks.less related)

theorem next {next : BodyStep σ κ (Option Int64)} (instr : Instr) (straight : instr.target? = none)
    (related : relates fuel next rest) :
    relates fuel (instr.meaning actions next fun _ => next) (instr :: rest) :=
  tracks.instr instr related fun _ jumps => absurd (straight.symm.trans jumps) (by simp)

theorem skip (label : Label)
    (related : relates fuel steps rest) : relates fuel steps (.setLabel label :: rest) :=
  tracks.next (.setLabel label) rfl related

/-- A jump goes on at its label, whatever stands behind it. -/
theorem jump {steps other : BodyStep σ κ (Option Int64)} (label : Label)
    (related : relates fuel steps (code.from label)) (behind : relates fuel other rest) :
    relates fuel steps (.jump label :: rest) := by
  have jumped : relates fuel ((Instr.jump label).meaning actions other fun _ => steps)
      (.jump label :: rest) := by
    refine tracks.instr _ behind ?_
    rintro target ⟨rfl⟩
    exact related
  exact jumped

end Tracks

/-- What follows the ways in which some code of a body is left. -/
structure Leads {σ κ : Type} (relates : Nat → BodyStep σ κ (Option Int64) → Code → Prop)
    (fuel : Nat) (code : Code) (loop : Option LoopLabels) (inner after : Code)
    (rest : Exit → BodyStep σ κ (Option Int64)) : Prop where
  next : relates fuel (rest .next) after
  /-- Only where some code breaks out of a loop does the loop need a label behind it. -/
  broken : ∀ labels, loop = some labels → .jump labels.exit ∈ inner →
    relates fuel (rest .breakLoop) (code.from labels.exit)
  continued : ∀ labels, loop = some labels → .jump labels.head ∈ inner →
    relates fuel (rest .continueLoop) (code.from labels.head)
  left : ∀ value, rest (.leave value) = pure value

/-- A part of some code is left in the same ways, but for its own end. -/
theorem Leads.part {part behind : Code} {rest : Exit → BodyStep σ κ (Option Int64)}
    (leads : Leads relates fuel code loop inner after rest)
    (within : ∀ instr ∈ part, instr ∈ inner) (next : relates fuel (rest .next) behind) :
    Leads relates fuel code loop part behind rest where
  next := next
  broken labels known jumps := leads.broken labels known (within _ jumps)
  continued labels known jumps := leads.continued labels known (within _ jumps)
  left := leads.left

namespace Actions

variable (rest : Exit → BodyStep σ κ (Option Int64))

/-- What follows a round of a loop. -/
def afterRound (round : BodyStep σ κ Exit) (rounds : Nat)
    (rest : Exit → BodyStep σ κ (Option Int64)) : Exit → BodyStep σ κ (Option Int64)
  | .breakLoop => rest .next
  | .leave value => rest (.leave value)
  | _ =>
    match rounds with
    | 0 => throw .outOfFuel
    | rounds + 1 => repeatFrom round rounds round >>= rest

/-- A loop is a round, and then what follows it. -/
theorem repeatFrom_bind (round : BodyStep σ κ Exit) (rounds : Nat) (current : BodyStep σ κ Exit) :
    repeatFrom round rounds current >>= rest = current >>= afterRound round rounds rest := by
  rw [repeatFrom.eq_def, bind_assoc]
  refine bind_congr fun exit => ?_
  cases exit with
  | next | continueLoop => cases rounds <;> rfl
  | breakLoop | leave value => simp [afterRound]

/-- What follows the first of some statements. -/
def afterFirst (others : BodyStep σ κ Exit) (rest : Exit → BodyStep σ κ (Option Int64)) :
    Exit → BodyStep σ κ (Option Int64)
  | .next => others >>= rest
  | exit => rest exit

theorem thenDo_bind (first others : BodyStep σ κ Exit) :
    thenDo first others >>= rest = first >>= afterFirst others rest := by
  rw [thenDo, bind_assoc]
  refine bind_congr fun exit => ?_
  cases exit <;> simp [afterFirst]

theorem wait_bind (actions : Actions σ κ) (condition : Expr) :
    actions.wait condition >>= rest = actions.eval condition >>= fun value =>
      if value = 0 then rest (.leave none) else rest .next := by
  rw [wait, bind_assoc]
  refine bind_congr fun value => ?_
  split <;> simp

theorem guarded_bind (actions : Actions σ κ) (condition : Expr) (body : BodyStep σ κ Exit) :
    actions.guarded condition body >>= rest = actions.eval condition >>= fun value =>
      if value = 0 then rest .breakLoop else body >>= rest := by
  rw [guarded, bind_assoc]
  refine bind_congr fun value => ?_
  split <;> simp

/-- One of two branches, and then what follows it. -/
theorem exec_ifThen_bind (actions : Actions σ κ) (fuel : Nat) (point : Point) (condition : Expr)
    (taken otherwise : List Stmt) :
    actions.exec fuel point (.ifThen condition taken otherwise) >>= rest =
      actions.eval condition >>= fun value =>
        if value = 0 then
          actions.execAll fuel (point + Stmt.pointCounts taken) otherwise >>= rest
        else actions.execAll fuel point taken >>= rest := by
  rw [exec, bind_assoc]
  refine bind_congr fun value => ?_
  split <;> rfl

theorem await_bind (actions : Actions σ κ) (callee : CoroutineId) :
    actions.await callee >>= rest = actions.drive callee >>= fun ended =>
      if ended then rest .next else rest (.leave none) := by
  rw [await, bind_assoc]
  refine bind_congr fun ended => ?_
  split <;> simp

end Actions

/-- The first of some statements is left in the same ways, but for going on with the others. -/
theorem Leads.first {others : Code} {next : BodyStep σ κ Exit}
    {rest : Exit → BodyStep σ κ (Option Int64)}
    (leads : Leads relates fuel code loop (inner ++ others) after rest)
    (behind : relates fuel (next >>= rest) (others ++ after)) :
    Leads relates fuel code loop inner (others ++ after) (Actions.afterFirst next rest) where
  next := behind
  broken labels known jumps := leads.broken labels known (List.mem_append_left _ jumps)
  continued labels known jumps := leads.continued labels known (List.mem_append_left _ jumps)
  left := leads.left

/-- What follows the ways in which a round of a loop is left. -/
structure RoundLeads {σ κ : Type} (relates : Nat → BodyStep σ κ (Option Int64) → Code → Prop)
    (fuel : Nat) (again after : Code) (rest : Exit → BodyStep σ κ (Option Int64)) : Prop where
  next : relates fuel (rest .next) again
  continued : relates fuel (rest .continueLoop) again
  broken : relates fuel (rest .breakLoop) after
  left : ∀ value, rest (.leave value) = pure value

namespace Tracks

variable {round : BodyStep σ κ Exit}

/-- Behind a round, a loop goes on if there are rounds left for it. -/
theorem afterRound_leads (tracks : Tracks actions code relates)
    {rest : Exit → BodyStep σ κ (Option Int64)} {again : Code} (enough : fuel ≤ rounds - 1)
    (repeats : ∀ more, rounds = more + 1 →
      relates fuel (Actions.repeatFrom round more round >>= rest) again)
    (next : relates fuel (rest .next) after) (left : ∀ value, rest (.leave value) = pure value) :
    RoundLeads relates fuel again after (Actions.afterRound round rounds rest) := by
  cases rounds with
  | zero =>
    -- No instruction is looked at, and no round is left.
    cases Nat.le_zero.mp enough
    exact ⟨tracks.exhausted, tracks.exhausted, next, left⟩
  | succ more => exact ⟨repeats more rfl, repeats more rfl, next, left⟩

/-- A loop starts at its label with every round. -/
theorem repeat_tracks (tracks : Tracks actions code relates)
    {rest : Exit → BodyStep σ κ (Option Int64)} (placed : code.from head = .setLabel head :: inner)
      (once : ∀ fuel rest, fuel ≤ limit → RoundLeads relates fuel (code.from head) after rest →
      relates fuel (round >>= rest) inner) (next : relates limit (rest .next) after)
    (left : ∀ value, rest (.leave value) = pure value) (rounds fuel : Nat) (enough : fuel ≤ rounds)
    (within : fuel ≤ limit) :
    relates fuel (Actions.repeatFrom round rounds round >>= rest) (code.from head) := by
  have nextAt : ∀ {less}, less ≤ limit → relates less (rest .next) after :=
    fun small => tracks.fewer small next
  induction rounds generalizing fuel with
  | zero =>
    cases Nat.le_zero.mp enough
    rw [placed, Actions.repeatFrom_bind]
    exact tracks.skip head (once 0 _ within
      (tracks.afterRound_leads (Nat.le_refl 0) nofun (nextAt within) left))
  | succ rounds ih =>
    have again : ∀ {less}, less ≤ rounds → less ≤ limit → ∀ more, rounds + 1 = more + 1 →
        relates less (Actions.repeatFrom round more round >>= rest) (code.from head) := by
      rintro less small below more ⟨rfl⟩
      exact ih less small below
    rw [placed, Actions.repeatFrom_bind]
    -- The label counts as an instruction, so that one round less is enough behind it.
    cases fuel with
    | zero =>
      exact tracks.skip head (once 0 _ within
        (tracks.afterRound_leads (Nat.zero_le _) (again (Nat.zero_le _) within) (nextAt within)
          left))
    | succ fuel =>
      have small : fuel ≤ rounds := Nat.le_of_succ_le_succ enough
      have below : fuel ≤ limit := Nat.le_of_succ_le within
      exact tracks.label (once fuel _ below
        (tracks.afterRound_leads small (again small below) (nextAt below) left))

end Tracks

/-- Code refers to what the actions of its body refer to. -/
structure BodyContext.Matches {σ κ : Type} (context : BodyContext) (actions : Actions σ κ) :
    Prop where
  parameters : context.parameters = actions.parameters
  static : ∀ id, context.rename (.static id) = .static id
  /-- Only a coroutine has an end that is kept. -/
  finish : context.isCoroutine = false → actions.finish = pure ()

namespace Tracks

variable {context : BodyContext} {setting : BodySetting}

section Parts

variable (tracks : Tracks actions code relates)

include tracks

/-- Arguments are assigned one after the other. -/
theorem pass_tracks (same : context.Matches actions) {steps : BodyStep σ κ (Option Int64)}
    (callee : CoroutineId) (args : List Expr) (related : relates fuel steps rest) :
    relates fuel (do (actions.through context.rename).pass callee args; steps)
      (context.passArguments callee args ++ rest) := by
  have parameters : (actions.through context.rename).parameters = context.parameters :=
    same.parameters.symm
  rw [Actions.pass, BodyContext.passArguments, parameters]
  induction (context.parameters callee).zip args with
  | nil => simpa using related
  | cons pair pairs ih =>
    have assigned := tracks.next
      (.assign ⟨.static pair.1, none⟩ none (pair.2.mapVars context.rename)) rfl ih
    simpa [Instr.meaning, Actions.through, Place.mapVars, same.static] using assigned

/-- A test goes on at a label or behind it. -/
theorem branch (context : BodyContext) {steps other : BodyStep σ κ (Option Int64)}
    (condition : Expr) (label : Label) (failed : relates fuel other (code.from label))
    (held : relates fuel steps rest) :
    relates fuel
      ((actions.through context.rename).eval condition >>= fun value =>
        if value = 0 then other else steps)
      (.jumpIfFalse (condition.mapVars context.rename) label :: rest) := by
  have tested : relates fuel
      ((Instr.jumpIfFalse (condition.mapVars context.rename) label).meaning actions steps
        fun _ => other)
      (.jumpIfFalse (condition.mapVars context.rename) label :: rest) := by
    refine tracks.instr _ held ?_
    rintro target ⟨rfl⟩
    exact failed
  exact tested

variable {rest : Exit → BodyStep σ κ (Option Int64)}

/-- The first of two branches ends with a jump behind the second. -/
theorem firstBranch_leads {label behind : Label} {whole other : Code}
    {second : BodyStep σ κ (Option Int64)} (atBehind : code.from behind = .setLabel behind :: after)
    (leads : Leads relates fuel code loop whole after rest)
    (within : ∀ instr ∈ inner, instr ∈ whole)
    (runs : relates fuel second (other ++ .setLabel behind :: after)) :
    Leads relates fuel code loop inner
      (.jump behind :: .setLabel label :: (other ++ .setLabel behind :: after)) rest :=
  leads.part within
    (tracks.jump behind (atBehind ▸ tracks.skip behind leads.next) (tracks.skip label runs))

/-- The body of a loop is left to its start, or out of the loop. -/
theorem bodyLeads {exit : Label} {rear : Code}
    (leads : RoundLeads relates fuel (code.from head) after rest)
    (behind : relates fuel (rest .breakLoop) rear)
    (exits : .jump exit ∈ inner → relates fuel (rest .breakLoop) (code.from exit)) :
    Leads relates fuel code (some ⟨head, exit⟩) inner (.jump head :: rear) rest where
  next := tracks.jump head leads.next behind
  broken := by
    rintro labels ⟨rfl⟩
    exact exits
  continued := by
    rintro labels ⟨rfl⟩ -
    exact leads.continued
  left := leads.left

/-- The body of a loop with a condition is left to its start, or behind the loop. -/
theorem while_bodyLeads (atExit : code.from (label + 1) = .setLabel (label + 1) :: after)
    (leads : RoundLeads relates fuel (code.from label) after rest) :
    Leads relates fuel code (some ⟨label, label + 1⟩) inner
      (.jump label :: .setLabel (label + 1) :: after) rest := by
  have broken := tracks.skip (label + 1) leads.broken
  exact tracks.bodyLeads leads broken fun _ => atExit ▸ broken

/-- The body of a loop without a condition is left to its start, or behind the loop. -/
theorem loop_bodyLeads {exits : Prop} [Decidable exits]
    (atExit : .jump (label + 1) ∈ inner → code.from (label + 1) = .setLabel (label + 1) :: after)
    (leads : RoundLeads relates fuel (code.from label) after rest) :
    Leads relates fuel code (some ⟨label, label + 1⟩) inner
      (.jump label :: ((if exits then [.setLabel (label + 1)] else []) ++ after)) rest := by
  refine tracks.bodyLeads leads ?_ fun jumps => ?_
  · split
    · exact tracks.skip (label + 1) leads.broken
    · exact leads.broken
  · exact atExit jumps ▸ tracks.skip (label + 1) leads.broken

/-- The code of a loop with a condition does what its rounds do. -/
theorem while_repeats (context : BodyContext) {condition : Expr} {body : BodyStep σ κ Exit}
    (atHead : code.from label = .setLabel label ::
      .jumpIfFalse (condition.mapVars context.rename) (label + 1) ::
      (inner ++ .jump label :: .setLabel (label + 1) :: after))
    (atExit : code.from (label + 1) = .setLabel (label + 1) :: after)
    (once : ∀ fuel rest, fuel ≤ limit →
      Leads relates fuel code (some ⟨label, label + 1⟩) inner (.jump label ::
      .setLabel (label + 1) :: after) rest → relates fuel (body >>= rest) (inner ++ .jump label ::
      .setLabel (label + 1) :: after)) (next : relates limit (rest .next) after)
    (left : ∀ value, rest (.leave value) = pure value) (rounds fuel : Nat) (enough : fuel ≤ rounds)
    (within : fuel ≤ limit) :
    relates fuel
      (Actions.repeatFrom ((actions.through context.rename).guarded condition body) rounds
        ((actions.through context.rename).guarded condition body) >>= rest)
      (code.from label) := by
  refine tracks.repeat_tracks atHead (fun fuel rest small leads => ?_) next left rounds fuel enough
    within
  rw [Actions.guarded_bind]
  exact tracks.branch context condition (label + 1)
    (atExit ▸ tracks.skip (label + 1) leads.broken)
    (once fuel rest small (tracks.while_bodyLeads atExit leads))

end Parts

mutual

/-- The code of a statement does what the statement does, whatever follows. -/
theorem exec_tracks (tracks : Tracks actions code relates) (same : context.Matches actions)
    {rounds fuel : Nat} (enough : fuel ≤ rounds - 1) (statement : Stmt) {loop : Option LoopLabels}
    {label point : Nat} {after : Code} {rest : Exit → BodyStep σ κ (Option Int64)}
    (placed : code.Contains (context.code loop label point statement) after)
    (closed : statement.WellFormed setting loop.isSome)
    (leads : Leads relates fuel code loop (context.code loop label point statement) after rest) :
    relates fuel ((actions.through context.rename).exec rounds point statement >>= rest)
      (context.code loop label point statement ++ after) := by
  cases statement with
  | letVar id value =>
    cases value with
    | none => simpa [BodyContext.code, Actions.exec] using leads.next
    | some value =>
      have stored := tracks.next (.assign ⟨context.rename (.localVar id), none⟩ none
        (value.mapVars context.rename)) rfl leads.next
      simpa [BodyContext.code, Actions.exec, Instr.meaning, Actions.through,
        Place.mapVars] using stored
  | yield location =>
    have resumed := tracks.next (.resume point) rfl leads.next
    have kept := tracks.next (.setState point) rfl (tracks.next .suspend rfl resumed)
    simpa [BodyContext.code, Actions.exec, Instr.meaning, Actions.through, leads.left] using kept
  | waitUntil condition hint location =>
    have tested := tracks.next (.returnUnless (condition.mapVars context.rename) hint) rfl
      leads.next
    have kept := tracks.next (.setState point) rfl (tracks.next (.resume point) rfl tested)
    simpa [BodyContext.code, Actions.exec, Actions.wait_bind, Instr.meaning, Actions.through,
      leads.left] using kept
  | call callee args location =>
    have driven := tracks.next (.drive callee) rfl leads.next
    have kept := tracks.next (.setState point) rfl (tracks.next (.resume point) rfl driven)
    have passed := tracks.pass_tracks same callee args kept
    simpa [BodyContext.code, Actions.exec, Actions.await_bind, Instr.meaning, Actions.through,
      leads.left] using passed
  | ifThen condition taken otherwise =>
    rw [Actions.exec_ifThen_bind]
    cases otherwise with
    | nil =>
      obtain ⟨inside, atLabel⟩ := BodyContext.contains_oneBranch placed
      have skipped := tracks.skip label leads.next
      have inner := execAll_tracks tracks same enough taken inside closed.2.1
        (leads.part (fun instr member => by simp [BodyContext.code, member]) skipped)
      have first := tracks.branch context condition label (atLabel ▸ skipped) inner
      simpa [BodyContext.code, Actions.execAll] using first
    | cons head others =>
      obtain ⟨inside, beside, atLabel, atBehind⟩ := BodyContext.contains_twoBranches rfl placed
      have second := execAll_tracks tracks same enough (head :: others) beside closed.2.2
        (leads.part (fun instr member => by simp [BodyContext.code, member])
          (tracks.skip _ leads.next))
      have inner := execAll_tracks tracks same enough taken inside closed.2.1
        (tracks.firstBranch_leads atBehind leads
          (fun instr member => by simp [BodyContext.code, member]) second)
      have first := tracks.branch context condition label (atLabel ▸ tracks.skip label second) inner
      simpa [BodyContext.code] using first
  | whileLoop condition body =>
    obtain ⟨inside, atHead, atExit⟩ := BodyContext.contains_while placed
    have repeats := tracks.while_repeats context atHead atExit
      (fun less rest small leads => execAll_tracks tracks same (Nat.le_trans small enough) body
        inside closed.2 leads)
      leads.next leads.left rounds fuel (by omega) (Nat.le_refl fuel)
    rw [atHead] at repeats
    simpa [BodyContext.code, Actions.exec] using repeats
  | loop body =>
    obtain ⟨inside, atHead, atExit⟩ := BodyContext.contains_loop placed
    have repeats := tracks.repeat_tracks atHead (fun less rest small leads =>
      execAll_tracks tracks same (Nat.le_trans small enough) body inside closed
        (tracks.loop_bodyLeads atExit leads))
      leads.next leads.left rounds fuel (by omega) (Nat.le_refl fuel)
    rw [atHead] at repeats
    simpa [BodyContext.code, Actions.exec] using repeats
  | breakLoop =>
    obtain ⟨labels, rfl⟩ := Option.isSome_iff_exists.mp closed
    have jumped := tracks.jump labels.exit (leads.broken labels rfl (by simp [BodyContext.code]))
      leads.next
    simpa [BodyContext.code, Actions.exec] using jumped
  | continueLoop =>
    obtain ⟨labels, rfl⟩ := Option.isSome_iff_exists.mp closed
    have jumped := tracks.jump labels.head
      (leads.continued labels rfl (by simp [BodyContext.code])) leads.next
    simpa [BodyContext.code, Actions.exec] using jumped
  | returnFrom value =>
    cases value with
    | none =>
      -- A coroutine keeps that it has ended, and all other bodies just return.
      cases ends : context.isCoroutine with
      | true =>
        have finished := tracks.next .finish rfl leads.next
        simpa [BodyContext.code, Actions.exec, Instr.meaning, Actions.through, ends,
          leads.left] using finished
      | false =>
        have returned := tracks.next (.returnFrom none) rfl leads.next
        simpa [BodyContext.code, Actions.exec, Instr.meaning, Actions.through, ends,
          same.finish ends, leads.left] using returned
    | some value =>
      have returned := tracks.next (.returnFrom (some (value.mapVars context.rename))) rfl
        leads.next
      simpa [BodyContext.code, Actions.exec, Instr.meaning, Actions.through,
        leads.left] using returned
  | assign place op value =>
    have stored := tracks.next (.assign (place.mapVars context.rename) op
      (value.mapVars context.rename)) rfl leads.next
    simpa [BodyContext.code, Actions.exec, Instr.meaning, Actions.through] using stored
  | eval expr =>
    have computed := tracks.next (.eval (expr.mapVars context.rename)) rfl leads.next
    simpa [BodyContext.code, Actions.exec, Instr.meaning, Actions.through] using computed

theorem execAll_tracks (tracks : Tracks actions code relates) (same : context.Matches actions)
    {rounds fuel : Nat} (enough : fuel ≤ rounds - 1) (statements : List Stmt)
    {loop : Option LoopLabels} {label point : Nat} {after : Code}
    {rest : Exit → BodyStep σ κ (Option Int64)}
    (placed : code.Contains (context.codes loop label point statements) after)
    (closed : Stmt.WellFormedAll setting loop.isSome statements)
    (leads : Leads relates fuel code loop (context.codes loop label point statements) after
      rest) :
    relates fuel ((actions.through context.rename).execAll rounds point statements >>= rest)
      (context.codes loop label point statements ++ after) := by
  cases statements with
  | nil => simpa [BodyContext.codes, Actions.execAll] using leads.next
  | cons first others =>
    obtain ⟨front, rear⟩ := BodyContext.contains_codes placed
    simp only [BodyContext.codes, Actions.execAll, Actions.thenDo_bind, List.append_assoc]
      at leads ⊢
    have behind := execAll_tracks tracks same enough others rear closed.2
      (leads.part (fun instr member => List.mem_append_right _ member) leads.next)
    exact exec_tracks tracks same enough first front closed.1 (leads.first behind)

end

mutual

/-- The code of a statement from one of its points on does what going on there does. -/
theorem resume_tracks (tracks : Tracks actions code relates) (same : context.Matches actions)
    {rounds fuel : Nat} (enough : fuel ≤ rounds - 1) (statement : Stmt) {loop : Option LoopLabels}
    {label point target : Nat} {after : Code} {rest : Exit → BodyStep σ κ (Option Int64)}
    (placed : code.Contains (context.code loop label point statement) after)
    (closed : statement.WellFormed setting loop.isSome)
    (within : point ≤ target ∧ target < point + statement.pointCount)
    (leads : Leads relates fuel code loop (context.code loop label point statement) after rest) :
    relates fuel ((actions.through context.rename).resume rounds point target statement >>= rest)
      ((context.code loop label point statement).atPoint target ++ after) := by
  cases statement with
  | yield location =>
    obtain rfl : target = point := by simp only [Stmt.pointCount] at within; omega
    have resumed := tracks.next (.resume target) rfl leads.next
    simpa [BodyContext.code, Code.atPoint_cons, Instr.resumes?, Actions.resume,
      Instr.meaning] using resumed
  | waitUntil condition hint location =>
    obtain rfl : target = point := by simp only [Stmt.pointCount] at within; omega
    have tested := tracks.next (.returnUnless (condition.mapVars context.rename) hint) rfl
      leads.next
    have resumed := tracks.next (.resume target) rfl tested
    simpa [BodyContext.code, Code.atPoint_cons, Instr.resumes?, Actions.resume, Actions.wait_bind,
      Instr.meaning, Actions.through, leads.left] using resumed
  | call callee args location =>
    obtain rfl : target = point := by simp only [Stmt.pointCount] at within; omega
    have driven := tracks.next (.drive callee) rfl leads.next
    have resumed := tracks.next (.resume target) rfl driven
    -- The arguments are not passed again.
    have passed : target ∉ Code.points false (context.passArguments callee args) := by simp
    simpa [BodyContext.code, Code.atPoint_append_right passed, Code.atPoint_cons, Instr.resumes?,
      Actions.resume, Actions.await_bind, Instr.meaning, Actions.through,
      leads.left] using resumed
  | ifThen condition taken otherwise =>
    simp only [Stmt.pointCount] at within
    cases otherwise with
    | nil =>
      obtain ⟨inside, -⟩ := BodyContext.contains_oneBranch placed
      have early : target < point + Stmt.pointCounts taken := by
        simpa [Stmt.pointCounts] using within.2
      have inner := resumeAll_tracks tracks same enough taken inside closed.2.1 ⟨within.1, early⟩
        (leads.part (fun instr member => by simp [BodyContext.code, member])
          (tracks.skip label leads.next))
      have present := context.mem_points_codes loop (label + 1) within.1 early
      simpa [BodyContext.code, Code.atPoint_cons, Instr.resumes?, Actions.resume, early,
        Code.atPoint_append_left present] using inner
    | cons head others =>
      obtain ⟨inside, beside, -, atBehind⟩ := BodyContext.contains_twoBranches rfl placed
      have secondLeads : Leads relates fuel code loop
          (context.codes loop (label + 1 + Stmt.labelCounts taken + 1)
            (point + Stmt.pointCounts taken) (head :: others)) _ rest :=
        leads.part (fun instr member => by simp [BodyContext.code, member])
          (tracks.skip (label + 1 + Stmt.labelCounts taken) leads.next)
      by_cases early : target < point + Stmt.pointCounts taken
      · have second := execAll_tracks tracks same enough (head :: others) beside closed.2.2
          secondLeads
        have inner := resumeAll_tracks tracks same enough taken inside closed.2.1 ⟨within.1, early⟩
          (tracks.firstBranch_leads atBehind leads
            (fun instr member => by simp [BodyContext.code, member]) second)
        have present := context.mem_points_codes loop (label + 1) within.1 early
        simpa [BodyContext.code, Code.atPoint_cons, Instr.resumes?, Actions.resume, early,
          Code.atPoint_append_left present] using inner
      · have later := Nat.le_of_not_lt early
        have last : target < point + Stmt.pointCounts taken + Stmt.pointCounts (head :: others) := by
          omega
        have inner := resumeAll_tracks tracks same enough (head :: others) beside closed.2.2
          ⟨later, last⟩ secondLeads
        have absent := context.not_mem_points_codes loop (label + 1) later
        have present := context.mem_points_codes loop (label + 1 + Stmt.labelCounts taken + 1)
          later last
        simpa [BodyContext.code, Code.atPoint_cons, Instr.resumes?, Actions.resume, early,
          Code.atPoint_append_right absent, Code.atPoint_append_left present] using inner
  | whileLoop condition body =>
    obtain ⟨inside, atHead, atExit⟩ := BodyContext.contains_while placed
    have repeats := fun more (_ : rounds = more + 1) => tracks.while_repeats context atHead atExit
      (fun less rest small leads => execAll_tracks tracks same (Nat.le_trans small enough) body
        inside closed.2 leads)
      leads.next leads.left more fuel (by omega) (Nat.le_refl fuel)
    have inner := resumeAll_tracks tracks same enough body inside closed.2 within
      (tracks.while_bodyLeads atExit
        (tracks.afterRound_leads enough repeats leads.next leads.left))
    have present := context.mem_points_codes (some ⟨label, label + 1⟩) (label + 2) within.1 within.2
    simpa [BodyContext.code, Code.atPoint_cons, Instr.resumes?, Actions.resume,
      Actions.repeatFrom_bind, Code.atPoint_append_left present] using inner
  | loop body =>
    obtain ⟨inside, atHead, atExit⟩ := BodyContext.contains_loop placed
    have repeats := fun more (_ : rounds = more + 1) => tracks.repeat_tracks atHead
      (fun less rest small leads =>
        execAll_tracks tracks same (Nat.le_trans small enough) body inside closed
          (tracks.loop_bodyLeads atExit leads))
      leads.next leads.left more fuel (by omega) (Nat.le_refl fuel)
    have inner := resumeAll_tracks tracks same enough body inside closed within
      (tracks.loop_bodyLeads atExit
        (tracks.afterRound_leads enough repeats leads.next leads.left))
    have present := context.mem_points_codes (some ⟨label, label + 1⟩) (label + 2) within.1 within.2
    simpa [BodyContext.code, Code.atPoint_cons, Instr.resumes?, Actions.resume,
      Actions.repeatFrom_bind, Code.atPoint_append_left present] using inner
  | letVar id value | breakLoop | continueLoop | returnFrom value | assign place op value
  | eval expr =>
    simp only [Stmt.pointCount] at within
    omega

theorem resumeAll_tracks (tracks : Tracks actions code relates) (same : context.Matches actions)
    {rounds fuel : Nat} (enough : fuel ≤ rounds - 1) (statements : List Stmt)
    {loop : Option LoopLabels} {label point target : Nat} {after : Code}
    {rest : Exit → BodyStep σ κ (Option Int64)}
    (placed : code.Contains (context.codes loop label point statements) after)
    (closed : Stmt.WellFormedAll setting loop.isSome statements)
    (within : point ≤ target ∧ target < point + Stmt.pointCounts statements)
    (leads : Leads relates fuel code loop (context.codes loop label point statements) after
      rest) :
    relates fuel
      ((actions.through context.rename).resumeAll rounds point target statements >>= rest)
      ((context.codes loop label point statements).atPoint target ++ after) := by
  cases statements with
  | nil => simp only [Stmt.pointCounts] at within; omega
  | cons first others =>
    obtain ⟨front, rear⟩ := BodyContext.contains_codes placed
    simp only [BodyContext.codes, Stmt.pointCounts] at leads within ⊢
    have behindLeads : Leads relates fuel code loop
        (context.codes loop (label + first.labelCount) (point + first.pointCount) others) _ rest :=
      leads.part (fun instr member => List.mem_append_right _ member) leads.next
    by_cases early : target < point + first.pointCount
    · have behind := execAll_tracks tracks same enough others rear closed.2 behindLeads
      have inner := resume_tracks tracks same enough first front closed.1 ⟨within.1, early⟩
        (leads.first behind)
      have present := context.mem_points_code loop label within.1 early
      simpa [Actions.resumeAll, early, Actions.thenDo_bind,
        Code.atPoint_append_left present] using inner
    · have later := Nat.le_of_not_lt early
      have inner := resumeAll_tracks tracks same enough others rear closed.2
        ⟨later, by omega⟩ behindLeads
      have absent := context.not_mem_points_code loop label later
      simpa [Actions.resumeAll, early, Code.atPoint_append_right absent] using inner

end

/-- The code of a body does what its statements do, from its beginning or from a point on. -/
theorem runFrom_tracks (tracks : Tracks actions code relates) (same : context.Matches actions)
    (enough : fuel ≤ rounds - 1) {body : List Stmt} {ending : Code}
    (whole : code = context.codes none 0 0 body ++ ending)
    (ends : relates fuel (do actions.finish; return none) ending)
    (closed : Stmt.WellFormedAll setting false body) (point : Option Point)
    (within : ∀ target, point = some target → target < Stmt.pointCounts body) :
    relates fuel ((actions.through context.rename).runFrom rounds body point)
      ((point.map code.atPoint).getD code) := by
  have placed : code.Contains (context.codes none 0 0 body) ending :=
    ⟨[], whole, context.labels_codes_nodup none 0 0 body⟩
  -- Outside of all loops a body is left by its end or by a statement that leaves it.
  have leads : Leads relates fuel code none (context.codes none 0 0 body) ending
      actions.leaving := by
    refine ⟨ends, fun labels same => ?_, fun labels same => ?_, fun _ => rfl⟩
    · cases same
    · cases same
  cases point with
  | none =>
    have runs := execAll_tracks tracks same enough body placed closed leads
    rwa [← whole] at runs
  | some target =>
    have last : target < 0 + Stmt.pointCounts body := by simpa using within target rfl
    have runs := resumeAll_tracks tracks same enough body placed closed
      ⟨Nat.zero_le target, last⟩ leads
    have present := context.mem_points_codes none 0 (Nat.zero_le target) last
    rwa [← Code.atPoint_append_left present, ← whole] at runs

end Tracks

end Coro
