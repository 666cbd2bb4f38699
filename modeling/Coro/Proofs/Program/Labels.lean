import Coro.Proofs.Program.Reference
import Coro.Proofs.Program.TextOrder
import Coro.Proofs.Program.WellFormed

/-!
Lowered code is complete: what is placed in it is used, and what it uses is placed.

Every label is placed at most once and jumped to from somewhere, and every jump finds its label. A
coroutine keeps each of its points in the state once and goes on with it once, further behind.
-/

namespace Coro

namespace Code

/-- Every label is placed once at most, and the labels that are placed are those jumped to. -/
structure LabelComplete (code : Code) : Prop where
  once : code.labels.Nodup
  used : ∀ label, label ∈ code.labels ↔ label ∈ code.targets

end Code

namespace BodyContext

variable (context : BodyContext)

/-- The code of a whole body is complete: there is no loop around it to jump to. -/
theorem codes_labelComplete (statements : List Stmt) :
    Code.LabelComplete (context.codes none 0 0 statements) :=
  ⟨context.labels_codes_nodup none 0 0 statements,
    fun _ => (context.mem_targets_codes 0 0 statements).symm⟩

end BodyContext

/-! ## Points -/

namespace Code

/-- What stands right behind the place where a point of some kind goes on. -/
def GoesOn : PointKind → Code → Prop
  | .yield, _ => True
  | .waitUntil condition hint, after => [.returnUnless condition hint] <+: after
  | .call callee, after => [.drive callee] <+: after

/-- A point of some kind is kept in the state once, and goes on once, further behind. -/
def SuspendsOnce (code : Code) (point : Point) (kind : PointKind) : Prop :=
  ∃ before between after,
    code = before ++ .setState point :: (between ++ .resume point :: after) ∧
    (∀ instr ∈ before ++ between ++ after, instr ≠ .setState point ∧ instr ≠ .resume point) ∧
    GoesOn kind after

/-- Where no point is shown twice, an instruction that shows one is the only one of its kind. -/
theorem not_mem_of_once (kept : Bool) {instr : Instr} {point : Point} {front back : Code}
    (shown : instr.point? kept = some point) (once : (points kept (front ++ instr :: back)).Nodup) :
    instr ∉ front ++ back := by
  intro again
  rw [points_append, points_cons, shown, Option.toList_some, List.singleton_append] at once
  -- The point is shown nowhere else.
  have others := (List.nodup_cons.mp (List.nodup_middle.mp once)).1
  rw [← points_append] at others
  exact others (List.mem_filterMap.mpr ⟨instr, again, shown⟩)

/-- Where no point is shown twice, a suspension is the only one of its point. -/
theorem suspendsOnce {code before between after : Code} {point : Point} {kind : PointKind}
    (once : ∀ kept, (points kept code).Nodup)
    (laid : code = before ++ .setState point :: (between ++ .resume point :: after))
    (goesOn : GoesOn kind after) : code.SuspendsOnce point kind := by
  have resumed : code = (before ++ .setState point :: between) ++ .resume point :: after := by
    simp [laid]
  have states := not_mem_of_once true rfl (laid ▸ once true)
  have resumes := not_mem_of_once false rfl (resumed ▸ once false)
  refine ⟨before, between, after, laid, fun instr member => ⟨?_, ?_⟩, goesOn⟩
  · rintro rfl
    simp_all
  · rintro rfl
    simp_all

end Code

/-- A suspension keeps its point before it goes on with it, and goes on as its kind tells. -/
theorem BodyContext.suspension_goesOn (context : BodyContext) (point : Point) {statement : Stmt}
    {suspension : SuspensionPoint} (describes : statement.Describes context.rename suspension) :
    ∃ passed between last, context.suspension point statement =
        passed ++ .setState point :: (between ++ .resume point :: last) ∧
      ∀ after, Code.GoesOn suspension.kind (last ++ after) := by
  cases statement with
  | yield location =>
    cases describes
    exact ⟨[], [.suspend], [], rfl, fun _ => trivial⟩
  | waitUntil condition hint location =>
    cases describes
    exact ⟨[], [], [_], rfl, fun after => List.prefix_append [_] after⟩
  | call callee args location =>
    cases describes
    exact ⟨context.passArguments callee args, [], [_], rfl,
      fun after => List.prefix_append [_] after⟩
  | _ => exact describes.elim

mutual

theorem Stmt.pointCount_eq_zero {setting : BodySetting} {inLoop : Bool} {statement : Stmt}
    (alone : setting.caller = none) (formed : statement.WellFormed setting inLoop) :
    statement.pointCount = 0 := by
  cases statement with
  -- Suspensions are well formed only where there is a caller.
  | yield location =>
    have called : setting.caller.isSome = true := formed
    simp [alone] at called
  | waitUntil condition hint location => simpa [alone] using formed.1
  | call callee args location =>
    obtain ⟨caller, present, -⟩ := formed.1
    cases alone.symm.trans present
  | ifThen condition taken otherwise =>
    have first := Stmt.pointCounts_eq_zero alone formed.2.1
    have second := Stmt.pointCounts_eq_zero alone formed.2.2
    simp [Stmt.pointCount, first, second]
  | whileLoop condition body => exact Stmt.pointCounts_eq_zero alone formed.2
  | loop body =>
    have inner : Stmt.WellFormedAll setting true body := formed
    exact Stmt.pointCounts_eq_zero alone inner
  | _ => rfl

theorem Stmt.pointCounts_eq_zero {setting : BodySetting} {inLoop : Bool} {statements : List Stmt}
    (alone : setting.caller = none) (formed : Stmt.WellFormedAll setting inLoop statements) :
    Stmt.pointCounts statements = 0 := by
  cases statements with
  | nil => rfl
  | cons first rest =>
    have here := Stmt.pointCount_eq_zero alone formed.1
    have later := Stmt.pointCounts_eq_zero alone formed.2
    simp [Stmt.pointCounts, here, later]

end

namespace Model

variable {model : Model} {program : Program} {owner : Owner} {code : Code}

/-- The points of a coroutine are kept and go on in its code, each once. -/
theorem machineOf_suspendsOnce (id : CoroutineId) (coroutine : Coroutine) {point : Point}
    {suspension : SuspensionPoint}
    (found : (model.machineOf id coroutine).points[point]? = some suspension) :
    (model.machineOf id coroutine).code.SuspendsOnce point suspension.kind := by
  have once : ∀ kept, (Code.points kept (model.machineOf id coroutine).code).Nodup := by
    intro kept
    rw [points_machineOf]
    exact List.nodup_range'
  -- The point describes a suspension, whose code stands in that of the coroutine.
  have described := Stmt.pointsAll_described (model.hoistOwn id) 0 coroutine.body
  rcases forall₂_getElem? described point with
    ⟨-, missing⟩ | ⟨entry, other, listed, same, describes⟩
  · cases missing.symm.trans found
  · obtain rfl := Option.some.inj (same.symm.trans found)
    have lays := (model.coroutineContext id).codes_lays none 0 0 0 coroutine.body point entry listed
    obtain ⟨front, back, whole⟩ := lays.trans (List.prefix_append _ [.finish]).isInfix
    obtain ⟨passed, between, last, split, goesOn⟩ :=
      (model.coroutineContext id).suspension_goesOn point describes
    rw [Nat.zero_add, split] at whole
    have laid : (model.machineOf id coroutine).code = (front ++ passed) ++
        .setState point :: (between ++ .resume point :: (last ++ back)) := by
      simp [machineOf, ← whole]
    exact Code.suspendsOnce once laid (goesOn back)

variable (lowered : model.LowersTo program)

include lowered

/-- Every code of a lowered program is complete. -/
theorem LowersTo.labelComplete (found : program.code? owner = some code) : code.LabelComplete := by
  obtain ⟨body, -, rfl⟩ := lowered.code?_eq found
  have complete := (model.contextOf owner).codes_labelComplete body.statements
  -- The end of a coroutine neither places a label nor jumps to one.
  have bare : owner.ending.labels = [] ∧ owner.ending.targets = [] := by
    cases owner <;> exact ⟨rfl, rfl⟩
  refine ⟨?_, fun label => ?_⟩
  · simpa [bare] using complete.once
  · simpa [bare] using complete.used label

/-- The points of a coroutine are kept and go on once each, and its code ends with its end. -/
theorem LowersTo.suspendsOnce {machine : StateMachine} (member : machine ∈ program.coroutines) :
    (∀ (point : Point) suspension, machine.points[point]? = some suspension →
      machine.code.SuspendsOnce point suspension.kind) ∧ [.finish] <:+ machine.code := by
  obtain ⟨id, found⟩ := List.getElem?_of_mem member
  rw [lowered.coroutines] at found
  obtain ⟨coroutine, -, rfl⟩ := Option.map_eq_some_iff.mp found
  exact ⟨fun _ _ => machineOf_suspendsOnce id coroutine, List.suffix_append _ _⟩

theorem LowersTo.points_eq_nil (formed : model.WellFormed) (found : program.code? owner = some code)
    (routine : owner.coroutine? = none) (kept : Bool) : Code.points kept code = [] := by
  obtain ⟨body, known, rfl⟩ := lowered.code?_eq found
  obtain ⟨valued, fine⟩ := formed.statementsOf known
  have none : owner.ending.points kept = [] := by
    cases owner with
    | coroutine id => cases routine
    | _ => rfl
  rw [Code.points_append, BodyContext.points_codes, Stmt.pointCounts_eq_zero routine fine, none]
  rfl

end Model

end Coro
