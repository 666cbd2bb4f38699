import Coro.Machine.Run
import Coro.Program.Lowering
import Mathlib.Algebra.GroupWithZero.Nat
import Mathlib.Data.List.Nodup
import Mathlib.Data.List.TakeWhile

/-!
Where labels and suspension points stand in the code of a body.

The labels of a statement lie in the range of numbers that is set aside for it. Its points are told
and gone on with exactly once each, in the order of the text.
-/

namespace Coro

variable {body statements taken : List Stmt} {target : Nat} {point : Point} {statement : Stmt}

/-- The labels that are placed in some code. -/
def Code.labels (code : Code) : List Label :=
  code.filterMap Instr.label?

/-- The point that an instruction keeps in the state, or the one that goes on there. -/
def Instr.point? (kept : Bool) : Instr → Option Point
  | .setState point => if kept then some point else none
  | .resume point => if kept then none else some point
  | _ => none

/-- The label that an instruction may jump to, if there is one. -/
def Instr.target? : Instr → Option Label
  | .jump label => some label
  | .jumpIfFalse _ label => some label
  | _ => none

/-- The points that some code keeps in the state, or those that go on in it, in its order. -/
def Code.points (kept : Bool) (code : Code) : List Point :=
  code.filterMap (Instr.point? kept)

/-- The code from the place on where a point goes on, or none of it. -/
def Code.atPoint (code : Code) (point : Point) : Code :=
  code.dropWhile fun instr => instr.resumes? != some point

namespace Code

variable {first second : Code}

@[simp] theorem labels_nil : labels [] = [] :=
  rfl

/-- An instruction places a label or none. -/
@[simp] theorem labels_cons (instr : Instr) :
    labels (instr :: first) = instr.label?.toList ++ labels first := by
  cases found : instr.label? <;> simp [labels, found]

/-- Labels of code in sequence. -/
@[simp] theorem labels_append : labels (first ++ second) = labels first ++ labels second :=
  List.filterMap_append

@[simp] theorem points_nil (kept : Bool) : points kept [] = [] :=
  rfl

/-- An instruction is at a point or at none. -/
@[simp] theorem points_cons (kept : Bool) (instr : Instr) :
    points kept (instr :: first) = (instr.point? kept).toList ++ points kept first := by
  cases found : instr.point? kept <;> simp [points, found]

/-- Points of code in sequence. -/
@[simp] theorem points_append (kept : Bool) :
    points kept (first ++ second) = points kept first ++ points kept second :=
  List.filterMap_append

/-- The points are those that code goes on with. -/
theorem mem_points_false :
    point ∈ points false first ↔ ∃ instr ∈ first, instr.resumes? = some point := by
  -- Reading the points that go on is asking each instruction which one does.
  have same : ∀ instr : Instr, instr.point? false = instr.resumes? := by
    intro instr
    cases instr <;> rfl
  simp only [points, List.mem_filterMap, same]

/-- Some code stands in other code, and no label is placed twice up to its end. -/
def Contains (code inner after : Code) : Prop :=
  ∃ before : Code, code = before ++ (inner ++ after) ∧ (before ++ inner).labels.Nodup

namespace Contains

variable {code inner rest after : Code}

/-- The first part is contained ahead of the second. -/
theorem left (contains : code.Contains (inner ++ rest) after) :
    code.Contains inner (rest ++ after) := by
  obtain ⟨before, rfl, once⟩ := contains
  rw [← List.append_assoc, labels_append] at once
  exact ⟨before, by simp, once.of_append_left⟩

/-- So is the second part, at the end. -/
theorem right (contains : code.Contains (inner ++ rest) after) : code.Contains rest after := by
  obtain ⟨before, rfl, once⟩ := contains
  exact ⟨before ++ inner, by simp, by simpa using once⟩

/-- A label leads to its place. -/
theorem from_label {label : Label}
    (contains : code.Contains (inner ++ .setLabel label :: rest) after) :
    code.from label = .setLabel label :: (rest ++ after) := by
  obtain ⟨before, rfl, once⟩ := contains
  -- Everything in front is skipped, since none of it places the label.
  have skipped : ∀ instr ∈ before ++ inner, (instr.label? != some label) = true := by
    intro instr member
    refine bne_iff_ne.mpr fun placed => ?_
    rw [← List.append_assoc, labels_append] at once
    exact List.disjoint_of_nodup_append once (List.mem_filterMap.mpr ⟨instr, member, placed⟩)
      (by simp [Instr.label?])
  have split : before ++ (inner ++ .setLabel label :: rest ++ after) =
      (before ++ inner) ++ .setLabel label :: (rest ++ after) := by simp
  rw [split, Code.from, List.dropWhile_append_of_pos skipped]
  simp [Instr.label?]

end Contains

/-- Code from a point on starts where it resumes. -/
theorem atPoint_cons (instr : Instr) (point : Point) :
    atPoint (instr :: first) point =
      if instr.resumes? = some point then instr :: first else atPoint first point := by
  by_cases resumes : instr.resumes? = some point <;> simp [atPoint, resumes]

/-- Nothing is left only where there is no such point. -/
theorem atPoint_eq_nil : atPoint first point = [] ↔ point ∉ points false first := by
  -- Nothing is left where every instruction is skipped, which is where none of them goes on.
  rw [atPoint, List.dropWhile_eq_nil_iff, mem_points_false]
  simp

/-- A point of the first part is found there. -/
theorem atPoint_append_left (present : point ∈ points false first) :
    atPoint (first ++ second) point = atPoint first point ++ second := by
  -- What is skipped ends before the end of the first part.
  have found : (atPoint first point).isEmpty = false :=
    List.isEmpty_eq_false_iff.mpr (mt atPoint_eq_nil.mp (not_not_intro present))
  rw [atPoint, List.dropWhile_append]
  simp only [atPoint] at found
  simp [atPoint, found]

/-- A point of the second part is found there. -/
theorem atPoint_append_right (absent : point ∉ points false first) :
    atPoint (first ++ second) point = atPoint second point := by
  refine List.dropWhile_append_of_pos fun instr member => bne_iff_ne.mpr fun resumes => absent ?_
  exact mem_points_false.mpr ⟨instr, member, resumes⟩

end Code

namespace BodyContext

variable (context : BodyContext)

/-- Passing arguments is assigning them. -/
theorem passArguments_assigns {callee : CoroutineId} {args : List Expr} {instr : Instr}
    (member : instr ∈ context.passArguments callee args) :
    ∃ place op value, instr = .assign place op value := by
  obtain ⟨⟨parameter, arg⟩, -, rfl⟩ := List.mem_map.mp member
  exact ⟨_, _, _, rfl⟩

/-- No label is placed on the way. -/
@[simp] theorem labels_passArguments (callee : CoroutineId) (args : List Expr) :
    Code.labels (context.passArguments callee args) = [] := by
  refine List.filterMap_eq_nil_iff.mpr fun instr member => ?_
  obtain ⟨place, op, value, rfl⟩ := context.passArguments_assigns member
  rfl

/-- Nothing is suspended on the way. -/
@[simp] theorem points_passArguments (kept : Bool) (callee : CoroutineId) (args : List Expr) :
    Code.points kept (context.passArguments callee args) = [] := by
  refine List.filterMap_eq_nil_iff.mpr fun instr member => ?_
  obtain ⟨place, op, value, rfl⟩ := context.passArguments_assigns member
  rfl

mutual

/-- A statement places a label at most once, and only one that is set aside for it. -/
theorem count_labels_code (loop : Option LoopLabels) (label point : Nat) (statement : Stmt)
    (found : Nat) :
    (Code.labels (context.code loop label point statement)).count found ≤
      if label ≤ found ∧ found < label + statement.labelCount then 1 else 0 := by
  cases statement with
  | ifThen condition taken otherwise =>
    -- The test takes one label, the first branch takes its own, and one more stands for the end.
    have inner := count_labels_codes loop (label + 1) point taken found
    have other := count_labels_codes loop (label + 1 + Stmt.labelCounts taken + 1)
      (point + Stmt.pointCounts taken) otherwise found
    simp only [code, Stmt.labelCount]
    split
    · simp [Instr.label?, List.count_singleton]
      grind
    · simp [Instr.label?, List.count_cons]
      grind
  | whileLoop condition body =>
    -- The loop takes two labels, its head and its exit, before those of its body.
    have inner := count_labels_codes (some ⟨label, label + 1⟩) (label + 2) point body found
    simp [code, Stmt.labelCount, Instr.label?, List.count_cons]
    grind
  | loop body =>
    have inner := count_labels_codes (some ⟨label, label + 1⟩) (label + 2) point body found
    simp only [code, Stmt.labelCount]
    -- The label behind the loop may be left out.
    split
    · simp [Instr.label?, List.count_cons]
      grind
    · simp [Instr.label?, List.count_cons]
      grind
  | letVar id value => cases value <;> simp [code, Instr.label?]
  | breakLoop | continueLoop => cases loop <;> simp [code, Instr.label?]
  | returnFrom value =>
    simp only [code]
    split <;> simp [Instr.label?]
  | _ => simp [code, Instr.label?]

/-- So does a list of statements. -/
theorem count_labels_codes (loop : Option LoopLabels) (label point : Nat)
    (statements : List Stmt) (found : Nat) :
    (Code.labels (context.codes loop label point statements)).count found ≤
      if label ≤ found ∧ found < label + Stmt.labelCounts statements then 1 else 0 := by
  cases statements with
  | nil => simp [codes]
  | cons first rest =>
    -- The ranges of the statements follow each other.
    have here := count_labels_code loop label point first found
    have later := count_labels_codes loop (label + first.labelCount) (point + first.pointCount) rest
      found
    rw [codes, Code.labels_append, List.count_append, Stmt.labelCounts]
    grind

end

/-- No label of a body is placed twice. -/
theorem labels_codes_nodup (loop : Option LoopLabels) (label point : Nat) (statements : List Stmt) :
    (Code.labels (context.codes loop label point statements)).Nodup := by
  refine List.nodup_iff_count_le_one.mpr fun found => ?_
  have most := context.count_labels_codes loop label point statements found
  grind

mutual

/-- Every point of a statement is shown once, in the order of the text. -/
theorem points_code (kept : Bool) (loop : Option LoopLabels) (label point : Nat)
    (statement : Stmt) :
    Code.points kept (context.code loop label point statement) =
      List.range' point statement.pointCount := by
  cases statement with
  | letVar id value => cases value <;> simp [code, Instr.point?, Stmt.pointCount]
  -- A suspension keeps its point once, and goes on with it once.
  | yield location => cases kept <;> simp [code, Instr.point?, Stmt.pointCount]
  | waitUntil condition hint location =>
    cases kept <;> simp [code, Instr.point?, Stmt.pointCount]
  | call callee args location =>
    cases kept <;> simp [code, Instr.point?, Stmt.pointCount]
  | ifThen condition taken otherwise =>
    have inner := points_codes kept loop (label + 1) point taken
    have other := points_codes kept loop (label + 1 + Stmt.labelCounts taken + 1)
      (point + Stmt.pointCounts taken) otherwise
    -- The points of the second branch are counted behind those of the first.
    cases otherwise with
    | nil => simp [code, Instr.point?, Stmt.pointCount, Stmt.pointCounts, inner]
    | cons first rest =>
      simp [code, Instr.point?, Stmt.pointCount, inner, other, List.range'_append_1]
  | whileLoop condition body =>
    have inner := points_codes kept (some ⟨label, label + 1⟩) (label + 2) point body
    simp [code, Instr.point?, Stmt.pointCount, inner]
  | loop body =>
    have inner := points_codes kept (some ⟨label, label + 1⟩) (label + 2) point body
    simp only [code, Stmt.pointCount]
    split <;> simp [Instr.point?, inner]
  | breakLoop => cases loop <;> simp [code, Instr.point?, Stmt.pointCount]
  | continueLoop => cases loop <;> simp [code, Instr.point?, Stmt.pointCount]
  | returnFrom value =>
    simp only [code, Stmt.pointCount]
    split <;> simp [Instr.point?]
  | assign place op value => simp [code, Instr.point?, Stmt.pointCount]
  | eval expr => simp [code, Instr.point?, Stmt.pointCount]

/-- So do those of a list of statements. -/
theorem points_codes (kept : Bool) (loop : Option LoopLabels) (label point : Nat)
    (statements : List Stmt) :
    Code.points kept (context.codes loop label point statements) =
      List.range' point (Stmt.pointCounts statements) := by
  cases statements with
  | nil => simp [codes, Stmt.pointCounts]
  | cons first rest =>
    have early := points_code kept loop label point first
    have late := points_codes kept loop (label + first.labelCount) (point + first.pointCount) rest
    simp [codes, Stmt.pointCounts, early, late, List.range'_append_1]

end

variable (loop : Option LoopLabels) (label : Nat) {point : Nat}

/-- A statement has the points that are counted for it. -/
theorem mem_points_code (first : point ≤ target) (last : target < point + statement.pointCount) :
    target ∈ Code.points false (context.code loop label point statement) := by
  rw [points_code, List.mem_range'_1]
  exact ⟨first, last⟩

/-- It has no point behind them. -/
theorem not_mem_points_code (late : point + statement.pointCount ≤ target) :
    target ∉ Code.points false (context.code loop label point statement) := by
  rw [points_code, List.mem_range'_1]
  omega

/-- Statements have the points that are counted for them. -/
theorem mem_points_codes (first : point ≤ target)
    (last : target < point + Stmt.pointCounts statements) :
    target ∈ Code.points false (context.codes loop label point statements) := by
  rw [points_codes, List.mem_range'_1]
  exact ⟨first, last⟩

/-- They have no point behind those. -/
theorem not_mem_points_codes (late : point + Stmt.pointCounts statements ≤ target) :
    target ∉ Code.points false (context.codes loop label point statements) := by
  rw [points_codes, List.mem_range'_1]
  omega

section Parts

variable {context} {code after : Code} {loop : Option LoopLabels} {label point : Nat}
  {condition : Expr}

/-- Where the first of some statements stands, and where the others do. -/
theorem contains_codes {first : Stmt} {others : List Stmt}
    (placed : code.Contains (context.codes loop label point (first :: others)) after) :
    let rest := context.codes loop (label + first.labelCount) (point + first.pointCount) others
    code.Contains (context.code loop label point first) (rest ++ after) ∧
      code.Contains rest after := by
  rw [codes] at placed
  exact ⟨placed.left, placed.right⟩

/-- Where the only branch of a test stands, and what its label leads to. -/
theorem contains_oneBranch
    (placed : code.Contains (context.code loop label point (.ifThen condition taken [])) after) :
    code.Contains (context.codes loop (label + 1) point taken) (.setLabel label :: after) ∧
      code.from label = .setLabel label :: after := by
  let test : Instr := .jumpIfFalse (condition.mapVars context.rename) label
  let inner := context.codes loop (label + 1) point taken
  -- The code is cut twice: behind the test, and in front of the label.
  have fromInner : code.Contains ([test] ++ (inner ++ [.setLabel label])) after := by
    simpa [BodyContext.code] using placed
  have fromLabel : code.Contains ((test :: inner) ++ [.setLabel label]) after := fromInner
  exact ⟨fromInner.right.left, fromLabel.from_label⟩

/-- Where the branches of a test stand, and what its labels lead to. -/
theorem contains_twoBranches {otherwise : List Stmt}
    (others : otherwise.isEmpty = false)
    (placed :
      code.Contains (context.code loop label point (.ifThen condition taken otherwise)) after) :
    let behind := label + 1 + Stmt.labelCounts taken
    let other := context.codes loop (behind + 1) (point + Stmt.pointCounts taken) otherwise
    code.Contains (context.codes loop (label + 1) point taken)
        (.jump behind :: .setLabel label :: (other ++ .setLabel behind :: after)) ∧
      code.Contains other (.setLabel behind :: after) ∧
      code.from label = .setLabel label :: (other ++ .setLabel behind :: after) ∧
      code.from behind = .setLabel behind :: after := by
  intro behind other
  let test : Instr := .jumpIfFalse (condition.mapVars context.rename) label
  let inner := context.codes loop (label + 1) point taken
  have whole : context.code loop label point (.ifThen condition taken otherwise) =
      test :: (inner ++ .jump behind :: .setLabel label :: (other ++ [.setLabel behind])) := by
    simp [BodyContext.code, others, test, inner, behind, other]
  rw [whole] at placed
  -- The code is cut at each of the four places that the statement speaks of.
  have fromInner : code.Contains
      ([test] ++ (inner ++ .jump behind :: .setLabel label :: (other ++ [.setLabel behind])))
      after := placed
  have fromLabel : code.Contains
      ((test :: (inner ++ [.jump behind])) ++ .setLabel label :: (other ++ [.setLabel behind]))
      after := by
    simpa using placed
  have fromOther : code.Contains
      ((test :: (inner ++ [.jump behind, .setLabel label])) ++ (other ++ [.setLabel behind]))
      after := by
    simpa using placed
  have fromBehind : code.Contains
      ((test :: (inner ++ .jump behind :: .setLabel label :: other)) ++ [.setLabel behind])
      after := by
    simpa using placed
  exact ⟨by simpa using fromInner.right.left, fromOther.right.left,
    by simpa using fromLabel.from_label, fromBehind.from_label⟩

/-- Where the body of a loop with a condition stands, and what the labels of the loop lead to. -/
theorem contains_while
    (placed : code.Contains (context.code loop label point (.whileLoop condition body)) after) :
    let inner := context.codes (some ⟨label, label + 1⟩) (label + 2) point body
    code.Contains inner (.jump label :: .setLabel (label + 1) :: after) ∧
      code.from label = .setLabel label ::
        .jumpIfFalse (condition.mapVars context.rename) (label + 1) ::
          (inner ++ .jump label :: .setLabel (label + 1) :: after) ∧
      code.from (label + 1) = .setLabel (label + 1) :: after := by
  intro inner
  let test : Instr := .jumpIfFalse (condition.mapVars context.rename) (label + 1)
  have whole : context.code loop label point (.whileLoop condition body) =
      .setLabel label :: test :: (inner ++ [.jump label, .setLabel (label + 1)]) := by
    simp [BodyContext.code, test, inner]
  rw [whole] at placed
  -- The head stands at the very front, the exit at the very end, and the body between them.
  have fromHead : code.Contains
      ([] ++ .setLabel label :: test :: (inner ++ [.jump label, .setLabel (label + 1)])) after :=
    placed
  have fromInner : code.Contains
      ([.setLabel label, test] ++ (inner ++ [.jump label, .setLabel (label + 1)])) after := placed
  have fromExit : code.Contains
      ((.setLabel label :: test :: (inner ++ [.jump label])) ++ [.setLabel (label + 1)]) after := by
    simpa using placed
  exact ⟨by simpa using fromInner.right.left, by simpa using fromHead.from_label,
    fromExit.from_label⟩

/-- Where the body of a loop without a condition stands, and what the labels of the loop lead to. -/
theorem contains_loop (placed : code.Contains (context.code loop label point (.loop body)) after) :
    let inner := context.codes (some ⟨label, label + 1⟩) (label + 2) point body
    let exit : Code := if inner.any fun instr => instr.jumps? == some (label + 1) then
      [.setLabel (label + 1)] else []
    code.Contains inner (.jump label :: (exit ++ after)) ∧
      code.from label = .setLabel label :: (inner ++ .jump label :: (exit ++ after)) ∧
      (.jump (label + 1) ∈ inner → code.from (label + 1) = .setLabel (label + 1) :: after) := by
  intro inner exit
  have whole : context.code loop label point (.loop body) =
      .setLabel label :: (inner ++ .jump label :: exit) := by
    simp [BodyContext.code, inner, exit]
  rw [whole] at placed
  have fromHead : code.Contains ([] ++ .setLabel label :: (inner ++ .jump label :: exit)) after :=
    placed
  have fromInner : code.Contains ([.setLabel label] ++ (inner ++ .jump label :: exit)) after :=
    placed
  refine ⟨by simpa using fromInner.right.left, by simpa using fromHead.from_label, fun jumps => ?_⟩
  -- Where the body breaks out of the loop, there is a label behind it.
  have leaves : exit = [.setLabel (label + 1)] :=
    if_pos (List.any_eq_true.mpr ⟨_, jumps, by simp [Instr.jumps?]⟩)
  have fromExit : code.Contains
      ((.setLabel label :: (inner ++ [.jump label])) ++ [.setLabel (label + 1)]) after := by
    simpa [leaves] using placed
  exact fromExit.from_label

end Parts

end BodyContext

end Coro
