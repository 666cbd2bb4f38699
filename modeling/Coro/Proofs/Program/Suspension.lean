import Coro.Proofs.Machine.Operation
import Coro.Proofs.Program.Reference

/-!
How suspensions are laid out in code.

Each of them takes three instructions that always stand together: one that keeps the point in the
state, one where the point goes on, and one that leaves the body. Jumps never lead into their midst.
-/

namespace Coro

/-- An instruction that has no part in a suspension, and after which a coroutine goes on or ends. -/
def Instr.IsFree : Instr → Prop
  | .setState _ | .suspend | .resume _ | .returnUnless _ _ | .drive _ | .returnFrom _ => False
  | _ => True

/-- Why a coroutine with given points is suspended at one of them. -/
def kindAt? (points : List SuspensionPoint) (point : Point) : Option PointKind :=
  points[point]?.map SuspensionPoint.kind

namespace Code

/-- Code in which every suspension stands whole, at a point of its own kind. -/
inductive Laid (points : List SuspensionPoint) : Code → Prop where
  | nil : Laid points []
  | free {instr : Instr} {rest : Code} :
      instr.IsFree → Laid points rest → Laid points (instr :: rest)
  | yield {point : Point} {rest : Code} :
      kindAt? points point = some .yield → Laid points rest →
      Laid points (.setState point :: .suspend :: .resume point :: rest)
  | waitUntil {point : Point} {condition : Expr} {hint : Option Likelihood} {rest : Code} :
      kindAt? points point = some (.waitUntil condition hint) → Laid points rest →
      Laid points (.setState point :: .resume point :: .returnUnless condition hint :: rest)
  | call {point : Point} {callee : CoroutineId} {rest : Code} :
      kindAt? points point = some (.call callee) → Laid points rest →
      Laid points (.setState point :: .resume point :: .drive callee :: rest)

/-- What stands where a point goes on. -/
inductive Resumes (points : List SuspensionPoint) (point : Point) : Code → Prop where
  | yield {rest : Code} :
      kindAt? points point = some .yield → Laid points rest →
      Resumes points point (.resume point :: rest)
  | waitUntil {condition : Expr} {hint : Option Likelihood} {rest : Code} :
      kindAt? points point = some (.waitUntil condition hint) → Laid points rest →
      Resumes points point (.resume point :: .returnUnless condition hint :: rest)
  | call {callee : CoroutineId} {rest : Code} :
      kindAt? points point = some (.call callee) → Laid points rest →
      Resumes points point (.resume point :: .drive callee :: rest)

theorem Resumes.ne_nil {points : List SuspensionPoint} {point : Point} {code : Code}
    (resumes : Resumes points point code) : code ≠ [] := by
  cases resumes <;> simp

namespace Laid

variable {points : List SuspensionPoint} {first second code : Code}

theorem append (early : Laid points first) (late : Laid points second) :
    Laid points (first ++ second) := by
  -- Whole suspensions are taken off the first code one by one, so that the seam never cuts one.
  induction early with
  | nil => exact late
  | free easy _ ih => exact .free easy ih
  | yield known _ ih => exact .yield known ih
  | waitUntil known _ ih => exact .waitUntil known ih
  | call known _ ih => exact .call known ih

theorem ofFree (easy : ∀ instr ∈ code, instr.IsFree) : Laid points code := by
  induction code with
  | nil => exact .nil
  | cons instr rest ih =>
    exact .free (easy instr (by simp)) (ih fun instr member => easy instr (by simp [member]))

/-- A subroutine is driven only at a point that calls it. -/
theorem calls (laid : Laid points code) {callee : CoroutineId} (member : .drive callee ∈ code) :
    ∃ point, kindAt? points point = some (.call callee) := by
  induction laid with
  | nil => exact nomatch member
  | free easy _ ih =>
    rcases List.mem_cons.mp member with rfl | later
    · exact easy.elim
    · exact ih later
  | yield _ _ ih | waitUntil _ _ ih => exact ih (by simpa using member)
  | @call point _ _ known _ ih =>
    -- Of the three instructions of a suspension, the last one drives.
    simp only [List.mem_cons, reduceCtorEq, false_or, Instr.drive.injEq] at member
    rcases member with rfl | later
    · exact ⟨point, known⟩
    · exact ih later

/-- A jump never leads into the midst of a suspension. -/
theorem jump (laid : Laid points code) (label : Label) : Laid points (code.from label) := by
  induction laid with
  | nil => exact .nil
  | @free instr rest easy inner ih =>
    -- The label is placed here, or somewhere behind.
    by_cases placed : instr.label? = some label
    · have here : Code.from (instr :: rest) label = instr :: rest := by simp [Code.from, placed]
      rw [here]
      exact .free easy inner
    · have later : Code.from (instr :: rest) label = Code.from rest label := by
        simp [Code.from, placed]
      rw [later]
      exact ih
  -- No instruction of a suspension places a label.
  | yield _ _ ih => simpa [Code.from, Instr.label?] using ih
  | waitUntil _ _ ih => simpa [Code.from, Instr.label?] using ih
  | call _ _ ih => simpa [Code.from, Instr.label?] using ih

/-- Code that begins with the suspension of one point goes on right there, or further behind. -/
theorem atPoint_suspension {here point : Point} {rest resumed : Code}
    (starts : code.atPoint point = if here = point then resumed else rest.atPoint point)
    (has : Code.points false code = here :: Code.points false rest)
    (resumes : Resumes points here resumed)
    (ih : point ∈ Code.points false rest → Resumes points point (rest.atPoint point))
    (present : point ∈ Code.points false code) : Resumes points point (code.atPoint point) := by
  rw [starts]
  by_cases same : here = point
  · subst same
    simpa using resumes
  · rw [if_neg same]
    rw [has] at present
    exact ih ((List.mem_cons.mp present).resolve_left (Ne.symm same))

/-- Where a point goes on, the rest of its suspension stands. -/
theorem atPoint (laid : Laid points code) {point : Point}
    (present : point ∈ Code.points false code) : Resumes points point (code.atPoint point) := by
  induction laid with
  | nil => simp at present
  | @free instr rest easy _ ih =>
    -- Only instructions of a suspension are where a point goes on, or keep one.
    have other : instr.resumes? = none := by
      cases instr <;> first | rfl | exact easy.elim
    have none : instr.point? false = none := by
      cases instr <;> first | rfl | exact easy.elim
    rw [atPoint_cons, other, if_neg nofun]
    exact ih (by simpa [none] using present)
  | yield known inner ih =>
    exact atPoint_suspension (by simp [atPoint_cons, Instr.resumes?]) (by simp [Instr.point?])
      (.yield known inner) ih present
  | waitUntil known inner ih =>
    exact atPoint_suspension (by simp [atPoint_cons, Instr.resumes?]) (by simp [Instr.point?])
      (.waitUntil known inner) ih present
  | call known inner ih =>
    exact atPoint_suspension (by simp [atPoint_cons, Instr.resumes?]) (by simp [Instr.point?])
      (.call known inner) ih present

end Laid

end Code

theorem numbered_append {first second points : List SuspensionPoint} {point : Nat}
    (numbered : first ++ second <+: points.drop point) :
    first <+: points.drop point ∧ second <+: points.drop (point + first.length) := by
  obtain ⟨rest, same⟩ := numbered
  -- Dropping the first points from what stands there leaves the second ones in front.
  refine ⟨⟨second ++ rest, by simp [← same]⟩, rest, ?_⟩
  rw [← List.drop_drop, ← same]
  simp

/-- A point has the kind of the suspension that it is numbered for. -/
theorem kindAt?_numbered {points : List SuspensionPoint} {point : Nat}
    {suspension : SuspensionPoint} (numbered : [suspension] <+: points.drop point) :
    kindAt? points point = some suspension.kind := by
  obtain ⟨rest, same⟩ := numbered
  -- What stands first behind the dropped points is the point of that number.
  have first : (points.drop point)[0]? = some suspension := by simp [← same]
  simp only [List.getElem?_drop, Nat.add_zero] at first
  simp [kindAt?, first]

namespace BodyContext

variable (context : BodyContext) {setting : BodySetting} {points : List SuspensionPoint}

mutual

/-- The suspensions of a statement stand whole in its code. -/
theorem code_laid (suspends : context.isCoroutine = true) (valueless : setting.valued = false)
    (loop : Option LoopLabels) (label point : Nat) (inLoop : Bool)
    (statement : Stmt) (formed : statement.WellFormed setting inLoop)
    (numbered : statement.points context.rename <+: points.drop point) :
    Code.Laid points (context.code loop label point statement) := by
  cases statement with
  | letVar id value => cases value <;> exact .ofFree (by simp [code, Instr.IsFree])
  -- The kinds of suspension are numbered by the point that they are laid out for.
  | yield location => exact .yield (kindAt?_numbered numbered) .nil
  | waitUntil condition hint location => exact .waitUntil (kindAt?_numbered numbered) .nil
  | call callee args location =>
    -- Passing the arguments is a list of assignments in front of the suspension.
    refine Code.Laid.append (.ofFree fun instr member => ?_)
      (.call (kindAt?_numbered numbered) .nil)
    obtain ⟨place, op, value, rfl⟩ := context.passArguments_assigns member
    trivial
  | ifThen condition taken otherwise =>
    -- The points of the second branch are numbered behind those of the first.
    obtain ⟨early, late⟩ := numbered_append numbered
    rw [Stmt.length_pointsAll] at late
    have inner := codes_laid suspends valueless loop (label + 1) point inLoop taken formed.2.1 early
    have other := codes_laid suspends valueless loop (label + 1 + Stmt.labelCounts taken + 1)
      (point + Stmt.pointCounts taken) inLoop otherwise formed.2.2 late
    simp only [code]
    -- Around the branches stand only tests, jumps and labels. The second branch may be missing.
    refine Code.Laid.append (.free trivial inner) ?_
    split
    · exact .free trivial .nil
    · exact Code.Laid.append (.free trivial (.free trivial other)) (.free trivial .nil)
  | whileLoop condition body =>
    have inner := codes_laid suspends valueless (some ⟨label, label + 1⟩) (label + 2) point true
      body formed.2 numbered
    exact Code.Laid.append (.free trivial (.free trivial inner))
      (.free trivial (.free trivial .nil))
  | loop body =>
    have inner := codes_laid suspends valueless (some ⟨label, label + 1⟩) (label + 2) point true
      body formed numbered
    simp only [code]
    -- The label behind the loop is only placed if something jumps there.
    refine Code.Laid.append (Code.Laid.append (.free trivial inner) (.free trivial .nil)) ?_
    split
    · exact .free trivial .nil
    · exact .nil
  | breakLoop => cases loop <;> exact .ofFree (by simp [code, Instr.IsFree])
  | continueLoop => cases loop <;> exact .ofFree (by simp [code, Instr.IsFree])
  | returnFrom value =>
    -- Coroutines return no value, so that the code is their end.
    obtain rfl : value = none := by simpa [valueless] using formed.1
    exact .ofFree (by simp [code, suspends, Instr.IsFree])
  | assign place op value => exact .free trivial .nil
  | eval expr => exact .free trivial .nil

theorem codes_laid (suspends : context.isCoroutine = true) (valueless : setting.valued = false)
    (loop : Option LoopLabels) (label point : Nat) (inLoop : Bool)
    (statements : List Stmt) (formed : Stmt.WellFormedAll setting inLoop statements)
    (numbered : Stmt.pointsAll context.rename statements <+: points.drop point) :
    Code.Laid points (context.codes loop label point statements) := by
  cases statements with
  | nil => exact .nil
  | cons first rest =>
    -- Each statement takes as many points as it has suspensions.
    obtain ⟨early, late⟩ := numbered_append numbered
    rw [Stmt.length_points] at late
    exact (code_laid suspends valueless loop label point inLoop first formed.1 early).append
      (codes_laid suspends valueless loop _ _ inLoop rest formed.2 late)

end

/-- Statements of a body that cannot be suspended let no coroutine go on. -/
theorem codes_plain (alone : setting.caller = none) (loop : Option LoopLabels) (label point : Nat)
    (inLoop : Bool) (statements : List Stmt)
    (formed : Stmt.WellFormedAll setting inLoop statements) :
    ∀ instr ∈ context.codes loop label point statements, instr.IsPlain := by
  -- A call is only well formed where there is a caller, and this body has none.
  have none : ∀ callee, ¬setting.references.subroutine callee := by
    rintro callee ⟨caller, count, present, -⟩
    cases alone.symm.trans present
  have grants : context.Grants setting.references
      ⟨fun _ => True, fun _ => True, fun _ => False⟩ :=
    ⟨⟨fun _ _ => trivial, fun _ _ => trivial⟩, none, fun _ _ _ _ => trivial⟩
  intro instr member
  have refers := codes_refers grants loop label point formed.refers instr member
  cases instr with
  | drive callee => exact refers.elim
  | _ => trivial

end BodyContext

/-! ## Jumps -/

namespace Code

/-- The labels that some code may jump to. -/
def targets (code : Code) : List Label :=
  code.filterMap Instr.target?

variable {first second : Code}

@[simp] theorem targets_nil : targets [] = [] :=
  rfl

@[simp] theorem targets_cons (instr : Instr) :
    targets (instr :: first) = instr.target?.toList ++ targets first := by
  cases found : instr.target? <;> simp [targets, found]

@[simp] theorem targets_append : targets (first ++ second) = targets first ++ targets second :=
  List.filterMap_append

/-- Code that always jumps to a label somewhere has it for a target. -/
theorem mem_targets_of_any {code : Code} {label : Label}
    (leaves : code.any (fun instr => instr.jumps? == some label) = true) :
    label ∈ code.targets := by
  obtain ⟨instr, member, jumps⟩ := List.any_eq_true.mp leaves
  refine List.mem_filterMap.mpr ⟨instr, member, ?_⟩
  -- Only a jump without a condition always jumps.
  cases instr with
  | jump target => simpa [Instr.jumps?, Instr.target?] using jumps
  | _ => simp [Instr.jumps?] at jumps

/-- Code jumps to a label if it places it, and else only to start or leave the innermost loop. -/
def Closes (code : Code) (loop : Option LoopLabels) (label : Label) : Prop :=
  (label ∈ code.labels → label ∈ code.targets) ∧
    (label ∈ code.targets → label ∈ code.labels ∨ .jump label ∈ code ∧
      ∃ labels, loop = some labels ∧ (label = labels.head ∨ label = labels.exit))

end Code

namespace BodyContext

variable (context : BodyContext)

@[simp] theorem targets_passArguments (callee : CoroutineId) (args : List Expr) :
    Code.targets (context.passArguments callee args) = [] := by
  refine List.filterMap_eq_nil_iff.mpr fun instr member => ?_
  obtain ⟨place, op, value, rfl⟩ := context.passArguments_assigns member
  rfl

mutual

/-- The jumps of a statement and its labels fit, but for those of the loop around it. -/
theorem code_closes (loop : Option LoopLabels) (label point : Nat) (statement : Stmt)
    (found : Label) : (context.code loop label point statement).Closes loop found := by
  cases statement with
  | ifThen condition taken otherwise =>
    -- The loop around both branches is the loop around the statement.
    have inner := codes_closes loop (label + 1) point taken found
    have other := codes_closes loop (label + 1 + Stmt.labelCounts taken + 1)
      (point + Stmt.pointCounts taken) otherwise found
    simp only [code]
    -- Without a second branch one label is enough, which stands behind the first.
    split
    · simp [Code.Closes, Instr.label?, Instr.target?] at inner ⊢
      grind
    · simp [Code.Closes, Instr.label?, Instr.target?] at inner other ⊢
      grind
  | whileLoop condition body =>
    -- Both labels of the loop are placed, so that its jumps find them whatever loop is around.
    have inner := codes_closes (some ⟨label, label + 1⟩) (label + 2) point body found
    simp [code, Code.Closes, Instr.label?, Instr.target?] at inner ⊢
    grind
  | loop body =>
    have inner := codes_closes (some ⟨label, label + 1⟩) (label + 2) point body found
    simp only [code]
    -- The label behind the loop is placed as soon as one instruction jumps there.
    split
    · rename_i leaves
      have jumped := Code.mem_targets_of_any leaves
      simp [Code.Closes, Instr.label?, Instr.target?] at inner ⊢
      grind
    · rename_i stays
      have never : .jump (label + 1) ∉
          context.codes (some ⟨label, label + 1⟩) (label + 2) point body := fun member =>
        stays (List.any_eq_true.mpr ⟨_, member, by simp [Instr.jumps?]⟩)
      simp [Code.Closes, Instr.label?, Instr.target?] at inner ⊢
      grind
  | letVar id value => cases value <;> simp [code, Code.Closes, Instr.label?, Instr.target?]
  | breakLoop | continueLoop =>
    cases loop <;> simp +contextual [code, Code.Closes, Instr.label?, Instr.target?]
  | returnFrom value =>
    simp only [code]
    split <;> simp [Code.Closes, Instr.label?, Instr.target?]
  | _ => simp [code, Code.Closes, Instr.label?, Instr.target?]

theorem codes_closes (loop : Option LoopLabels) (label point : Nat) (statements : List Stmt)
    (found : Label) : (context.codes loop label point statements).Closes loop found := by
  cases statements with
  | nil => simp [codes, Code.Closes]
  | cons first rest =>
    have early := code_closes loop label point first found
    have late := codes_closes loop (label + first.labelCount) (point + first.pointCount) rest found
    simp [codes, Code.Closes] at early late ⊢
    grind

end

/-- Outside of all loops, the labels that are placed are those jumped to. -/
theorem mem_targets_codes (label point : Nat) (statements : List Stmt) {found : Label} :
    found ∈ Code.targets (context.codes none label point statements) ↔
      found ∈ Code.labels (context.codes none label point statements) := by
  have closes := context.codes_closes none label point statements found
  simpa [Code.Closes, iff_def, and_comm] using closes

end BodyContext

end Coro
