import Coro.Proofs.Program.Lowering
import Coro.Proofs.Resolution

/-!
Suspension points in the order of the text.

A statement has an address: its place in its block, behind the places of all blocks and statements
around it. Addresses are ordered like the words of a dictionary, and this is the order in which
statements begin in a text. Points are numbered along it, and the first one too many is the fault.
-/

namespace Coro

/-- Where a statement stands in a block, by the places on the way to it. -/
abbrev Address := List Nat

namespace Stmt

/-- A statement at which a coroutine is suspended. -/
def Suspends : Stmt → Prop
  | yield _ | waitUntil .. | call .. => True
  | _ => False

/-- The place in the text of a statement at which a coroutine is suspended. -/
def location? : Stmt → Option Location
  | yield location | waitUntil _ _ location | call _ _ location => some location
  | _ => none

/-- The blocks inside of a statement, in the order of the text. -/
def blocks : Stmt → List (List Stmt)
  | ifThen _ taken otherwise => [taken, otherwise]
  | whileLoop _ body | loop body => [body]
  | _ => []

/-- A statement stands in a block itself, or in a block of one of its statements. -/
inductive StandsAt : List Stmt → Address → Stmt → Prop where
  | here {block : List Stmt} {place : Nat} {statement : Stmt} :
      block[place]? = some statement → StandsAt block [place] statement
  | inside {block inner : List Stmt} {place which : Nat} {address : Address}
      {outer statement : Stmt} :
      block[place]? = some outer → outer.blocks[which]? = some inner →
      StandsAt inner address statement → StandsAt block (place :: which :: address) statement

/-- All suspensions of a block with their addresses, in the order of the text. -/
structure InTextOrder (block : List Stmt) (listed : List (Address × Stmt)) : Prop where
  ascending : listed.Pairwise fun one other => one.1 < other.1
  all : ∀ address statement, (address, statement) ∈ listed ↔
    StandsAt block address statement ∧ statement.Suspends

/-- A suspension point has the kind and the place of a statement, with its variables replaced. -/
def Describes (rename : Var → Var) : Stmt → SuspensionPoint → Prop
  | yield location, point => point = ⟨.yield, location⟩
  | waitUntil condition hint location, point =>
    point = ⟨.waitUntil (condition.mapVars rename) hint, location⟩
  | call callee _ location, point => point = ⟨.call callee, location⟩
  | _, _ => False

/-! ## The list of suspensions -/

/-- Suspensions whose addresses start at a place. -/
def under (place : Nat) (listed : List (Address × Stmt)) : List (Address × Stmt) :=
  listed.map fun entry => (place :: entry.1, entry.2)

mutual

/-- The suspensions of a statement, with their addresses inside of it. -/
def suspensions : Stmt → List (Address × Stmt)
  | yield location => [([], yield location)]
  | waitUntil condition hint location => [([], waitUntil condition hint location)]
  | call callee args location => [([], call callee args location)]
  | ifThen _ taken otherwise =>
    under 0 (suspensionsAll 0 taken) ++ under 1 (suspensionsAll 0 otherwise)
  | whileLoop _ body => under 0 (suspensionsAll 0 body)
  | loop body => under 0 (suspensionsAll 0 body)
  | _ => []

/-- The suspensions of statements that stand in a block from a place on. -/
def suspensionsAll (place : Nat) : List Stmt → List (Address × Stmt)
  | [] => []
  | first :: rest => under place first.suspensions ++ suspensionsAll (place + 1) rest

end

/-- A statement stands at an address inside of another one, or is that one. -/
def StandsIn (outer : Stmt) (address : Address) (statement : Stmt) : Prop :=
  address = [] ∧ statement = outer ∨
    ∃ which rest inner, address = which :: rest ∧ outer.blocks[which]? = some inner ∧
      StandsAt inner rest statement

variable {block : List Stmt} {place : Nat} {address : Address} {statement : Stmt}
  {listed : List (Address × Stmt)}

/-- A statement stands in one of its block. -/
theorem standsAt_cons : StandsAt block (place :: address) statement ↔
    ∃ outer, block[place]? = some outer ∧ outer.StandsIn address statement := by
  constructor
  · intro stands
    cases stands with
    | here found => exact ⟨statement, found, .inl ⟨rfl, rfl⟩⟩
    | inside found known inner => exact ⟨_, found, .inr ⟨_, _, _, rfl, known, inner⟩⟩
  · rintro ⟨outer, found, ⟨rfl, rfl⟩ | ⟨which, rest, inner, rfl, known, stands⟩⟩
    · exact .here found
    · exact .inside found known stands

theorem not_standsAt_nil : ¬StandsAt block [] statement := by
  intro stands
  cases stands

/-- Addresses below a place start with it. -/
theorem mem_under : (address, statement) ∈ under place listed ↔
    ∃ rest, address = place :: rest ∧ (rest, statement) ∈ listed := by
  simp only [under, List.mem_map, Prod.mk.injEq, Prod.exists]
  constructor
  · rintro ⟨rest, inner, member, rfl, rfl⟩
    exact ⟨rest, rfl, member⟩
  · rintro ⟨rest, rfl, member⟩
    exact ⟨rest, statement, member, rfl, rfl⟩

/-- Below a place the order is the same. -/
theorem pairwise_under (ascending : listed.Pairwise fun one other => one.1 < other.1) :
    (under place listed).Pairwise fun one other => one.1 < other.1 := by
  refine List.pairwise_map.mpr (ascending.imp ?_)
  intro one other smaller
  exact List.cons_lt_cons_iff.mpr (.inr ⟨rfl, smaller⟩)

/-- In a statement with blocks, only what stands in one of them suspends. -/
theorem standsIn_blocks {outer : Stmt} (compound : ¬outer.Suspends) :
    outer.StandsIn address statement ∧ statement.Suspends ↔
      ∃ which rest inner, address = which :: rest ∧ outer.blocks[which]? = some inner ∧
        StandsAt inner rest statement ∧ statement.Suspends := by
  constructor
  · rintro ⟨⟨-, rfl⟩ | ⟨which, rest, inner, same, known, stands⟩, suspends⟩
    · exact absurd suspends compound
    · exact ⟨which, rest, inner, same, known, stands, suspends⟩
  · rintro ⟨which, rest, inner, same, known, stands, suspends⟩
    exact ⟨.inr ⟨which, rest, inner, same, known, stands⟩, suspends⟩

/-- A list has the suspensions of a block whose first statement has a given place. -/
def Lists (place : Nat) (block : List Stmt) (listed : List (Address × Stmt)) : Prop :=
  ∀ address statement, (address, statement) ∈ listed ↔
    ∃ index rest, address = (place + index) :: rest ∧
      StandsAt block (index :: rest) statement ∧ statement.Suspends

/-- From the first place on, addresses are those of the block. -/
theorem Lists.mem_block (lists : Lists 0 block listed) :
    (address, statement) ∈ listed ↔ StandsAt block address statement ∧ statement.Suspends := by
  rw [lists]
  simp only [Nat.zero_add]
  constructor
  · rintro ⟨index, rest, rfl, stands⟩
    exact stands
  · rintro ⟨stands, suspends⟩
    cases address with
    | nil => exact absurd stands not_standsAt_nil
    | cons index rest => exact ⟨index, rest, rfl, stands, suspends⟩

/-- The suspensions of a statement with one block are those of the block. -/
theorem mem_under_block {outer : Stmt} (compound : ¬outer.Suspends) (only : outer.blocks = [block])
    (lists : Lists 0 block listed) : (address, statement) ∈ under 0 listed ↔
      outer.StandsIn address statement ∧ statement.Suspends := by
  rw [standsIn_blocks compound, mem_under, only]
  simp only [lists.mem_block]
  constructor
  · rintro ⟨rest, same, stands⟩
    exact ⟨0, rest, block, same, rfl, stands⟩
  · rintro ⟨which, rest, inner, same, known, stands⟩
    obtain ⟨rfl, rfl⟩ : which = 0 ∧ inner = block := by
      rcases which with _ | which <;> simp_all
    exact ⟨rest, same, stands⟩

mutual

/-- The suspensions of a statement are those that stand in it. -/
theorem mem_suspensions (outer : Stmt) (address : Address) (statement : Stmt) :
    (address, statement) ∈ outer.suspensions ↔
      outer.StandsIn address statement ∧ statement.Suspends := by
  cases outer with
  | ifThen condition taken otherwise =>
    have first := suspensionsAll_lists 0 taken
    have second := suspensionsAll_lists 0 otherwise
    rw [standsIn_blocks id, suspensions, List.mem_append, mem_under, mem_under]
    simp only [first.mem_block, second.mem_block]
    -- The number of the block tells which of the two it is.
    constructor
    · rintro (⟨rest, same, stands⟩ | ⟨rest, same, stands⟩)
      · exact ⟨0, rest, taken, same, rfl, stands⟩
      · exact ⟨1, rest, otherwise, same, rfl, stands⟩
    · rintro ⟨which, rest, inner, same, known, stands⟩
      rcases which with _ | _ | which
      · cases known
        exact .inl ⟨rest, same, stands⟩
      · cases known
        exact .inr ⟨rest, same, stands⟩
      · cases known
  | whileLoop condition body | loop body =>
    have inner := suspensionsAll_lists 0 body
    exact mem_under_block id rfl inner
  -- Any other statement has no blocks, and is its only suspension if it is one.
  | yield location | waitUntil condition hint location | call callee args location =>
    simp only [suspensions, StandsIn, blocks, List.mem_singleton, Prod.mk.injEq]
    constructor
    · rintro ⟨rfl, rfl⟩
      exact ⟨.inl ⟨rfl, rfl⟩, trivial⟩
    · rintro ⟨same | ⟨_, _, _, -, known, -⟩, -⟩
      · exact same
      · cases known
  | _ =>
    simp only [suspensions, StandsIn, blocks, List.not_mem_nil, false_iff]
    rintro ⟨⟨-, rfl⟩ | ⟨_, _, _, -, known, -⟩, suspends⟩
    · exact suspends
    · cases known

theorem suspensionsAll_lists (place : Nat) (block : List Stmt) :
    Lists place block (suspensionsAll place block) := by
  intro address statement
  cases block with
  | nil =>
    simp only [suspensionsAll, List.not_mem_nil, standsAt_cons, List.getElem?_nil, false_iff]
    rintro ⟨_, _, -, ⟨_, found, -⟩, -⟩
    cases found
  | cons first rest =>
    have here := mem_suspensions first
    have later := suspensionsAll_lists (place + 1) rest address statement
    rw [suspensionsAll, List.mem_append, mem_under, later]
    simp only [here, standsAt_cons]
    -- A statement of the block is the first one, or has its place among the others.
    constructor
    · rintro (⟨inside, same, stands, suspends⟩ | ⟨index, inside, same, stands⟩)
      · exact ⟨0, inside, same, ⟨first, rfl, stands⟩, suspends⟩
      · exact ⟨index + 1, inside, by rw [same, Nat.add_right_comm, Nat.add_assoc], stands⟩
    · rintro ⟨index, inside, same, ⟨outer, found, stands⟩, suspends⟩
      cases index with
      | zero =>
        cases found
        exact .inl ⟨inside, same, stands, suspends⟩
      | succ index =>
        refine .inr ⟨index, inside, ?_, ⟨outer, found, stands⟩, suspends⟩
        rw [same, Nat.add_right_comm, Nat.add_assoc]

end

mutual

/-- The suspensions of a statement stand in the order of the text. -/
theorem pairwise_suspensions (statement : Stmt) :
    statement.suspensions.Pairwise fun one other => one.1 < other.1 := by
  cases statement with
  | ifThen condition taken otherwise =>
    have first := pairwise_suspensionsAll 0 taken
    have second := pairwise_suspensionsAll 0 otherwise
    refine List.pairwise_append.mpr ⟨pairwise_under first, pairwise_under second, ?_⟩
    -- All of the first block comes before all of the second.
    rintro ⟨address, one⟩ early ⟨address', other⟩ late
    obtain ⟨rest, rfl, -⟩ := mem_under.mp early
    obtain ⟨rest', rfl, -⟩ := mem_under.mp late
    exact List.cons_lt_cons_iff.mpr (.inl Nat.zero_lt_one)
  | whileLoop condition body | loop body => exact pairwise_under (pairwise_suspensionsAll 0 body)
  | _ => simp [suspensions]

theorem pairwise_suspensionsAll (place : Nat) (block : List Stmt) :
    (suspensionsAll place block).Pairwise fun one other => one.1 < other.1 := by
  cases block with
  | nil => exact .nil
  | cons first rest =>
    have here := pairwise_suspensions first
    have later := pairwise_suspensionsAll (place + 1) rest
    refine List.pairwise_append.mpr ⟨pairwise_under here, later, ?_⟩
    -- What stands in the first statement has its place, and all others have later ones.
    rintro ⟨address, one⟩ early ⟨address', other⟩ late
    obtain ⟨inside, rfl, -⟩ := mem_under.mp early
    obtain ⟨index, inside', rfl, -⟩ := (suspensionsAll_lists _ _ _ _).mp late
    exact List.cons_lt_cons_iff.mpr (.inl (by omega))

end

/-- The suspensions of a body are listed in the order of its text. -/
theorem suspensionsAll_inTextOrder (block : List Stmt) :
    InTextOrder block (suspensionsAll 0 block) :=
  ⟨pairwise_suspensionsAll 0 block, fun _ _ => (suspensionsAll_lists 0 block).mem_block⟩

/-- The suspensions of a block have only one order. -/
theorem InTextOrder.eq (order : InTextOrder block listed) : listed = suspensionsAll 0 block := by
  have other := suspensionsAll_inTextOrder block
  -- Both lists have the same entries, each once, and both are sorted.
  have once : ∀ {listed : List (Address × Stmt)},
      (listed.Pairwise fun one other => one.1 < other.1) → listed.Nodup := by
    intro listed ascending
    refine ascending.imp ?_
    rintro one other smaller rfl
    exact List.lt_irrefl _ smaller
  have same : listed.Perm (suspensionsAll 0 block) := by
    rw [List.perm_ext_iff_of_nodup (once order.ascending) (once other.ascending)]
    rintro ⟨address, statement⟩
    rw [order.all, other.all]
  refine same.eq_of_pairwise ?_ order.ascending other.ascending
  intro one other _ _ smaller larger
  exact absurd (List.lt_trans smaller larger) (List.lt_irrefl _)

/-! ## Points -/

theorem Describes.location {rename : Var → Var} {point : SuspensionPoint}
    (describes : statement.Describes rename point) : statement.location? = some point.location := by
  cases statement with
  | yield location | waitUntil condition hint location | call callee args location =>
    cases describes
    rfl
  | _ => exact describes.elim

/-- A list of points describes a list of suspensions, one by one. -/
abbrev Described (rename : Var → Var) : List (Address × Stmt) → List SuspensionPoint → Prop :=
  List.Forall₂ fun entry point => entry.2.Describes rename point

/-- What describes suspensions does so below a place. -/
theorem described_under {rename : Var → Var} {points : List SuspensionPoint}
    (described : Described rename listed points) : Described rename (under place listed) points :=
  List.forall₂_map_left_iff.mpr described

mutual

/-- The points of a statement describe its suspensions. -/
theorem points_described (rename : Var → Var) (statement : Stmt) :
    Described rename statement.suspensions (statement.points rename) := by
  cases statement with
  | ifThen condition taken otherwise =>
    have first := pointsAll_described rename 0 taken
    have second := pointsAll_described rename 0 otherwise
    exact List.rel_append (described_under first) (described_under second)
  | whileLoop condition body | loop body =>
    exact described_under (pointsAll_described rename 0 body)
  | yield location | waitUntil condition hint location | call callee args location =>
    exact .cons rfl .nil
  | _ => exact .nil

theorem pointsAll_described (rename : Var → Var) (place : Nat) (block : List Stmt) :
    Described rename (suspensionsAll place block) (pointsAll rename block) := by
  cases block with
  | nil => exact .nil
  | cons first rest =>
    have here := points_described rename first
    have later := pointsAll_described rename (place + 1) rest
    exact List.rel_append (described_under here) later

end

/-- A block has as many suspensions as points. -/
theorem length_suspensionsAll (place : Nat) (block : List Stmt) :
    (suspensionsAll place block).length = pointCounts block :=
  (pointsAll_described id place block).length_eq.trans (length_pointsAll id block)

theorem length_suspensions (statement : Stmt) :
    statement.suspensions.length = statement.pointCount :=
  (points_described id statement).length_eq.trans (length_points id statement)

end Stmt

/-! ## Code -/

namespace BodyContext

open Stmt

/-- The code of a suspension at a point; a call stores its arguments first. -/
def suspension (context : BodyContext) (point : Point) : Stmt → Code
  | .yield _ => [.setState point, .suspend, .resume point]
  | .waitUntil condition hint _ =>
    [.setState point, .resume point, .returnUnless (condition.mapVars context.rename) hint]
  | .call callee args _ =>
    context.passArguments callee args ++ [.setState point, .resume point, .drive callee]
  | _ => []

/-- Some code has that of suspensions in it, whose points are numbered from one on. -/
def Lays (context : BodyContext) (point : Point) (listed : List (Address × Stmt))
    (code : Code) : Prop :=
  ∀ i entry, listed[i]? = some entry → context.suspension (point + i) entry.2 <:+: code

namespace Lays

variable {context : BodyContext} {point : Nat} {code whole : Code}
  {listed more : List (Address × Stmt)}

/-- Suspensions in a part of the code are in all of it. -/
theorem within (lays : context.Lays point listed code) (part : code <:+: whole) :
    context.Lays point listed whole :=
  fun i entry found => (lays i entry found).trans part

theorem under (lays : context.Lays point listed code) (place : Nat) :
    context.Lays point (Stmt.under place listed) code := by
  intro i entry found
  rw [Stmt.under, List.getElem?_map, Option.map_eq_some_iff] at found
  obtain ⟨inner, known, rfl⟩ := found
  exact lays i inner known

/-- Suspensions of two parts, with the points of the second behind. -/
theorem append {count : Nat} (first : context.Lays point listed code)
    (length : listed.length = count) (second : context.Lays (point + count) more code) :
    context.Lays point (listed ++ more) code := by
  intro i entry found
  subst length
  by_cases early : i < listed.length
  · rw [List.getElem?_append_left early] at found
    exact first i entry found
  · rw [List.getElem?_append_right (Nat.le_of_not_lt early)] at found
    have late := second _ entry found
    rwa [Nat.add_assoc, Nat.add_sub_cancel' (Nat.le_of_not_lt early)] at late

end Lays

variable (context : BodyContext)

mutual

/-- The code of a statement has that of its suspensions in it. -/
theorem code_lays (loop : Option LoopLabels) (label point : Nat) (statement : Stmt) :
    context.Lays point statement.suspensions (context.code loop label point statement) := by
  cases statement with
  | ifThen condition taken otherwise =>
    have first := codes_lays loop (label + 1) point 0 taken
    have second := codes_lays loop (label + 1 + labelCounts taken + 1) (point + pointCounts taken) 0
      otherwise
    have length : (under 0 (suspensionsAll 0 taken)).length = pointCounts taken := by
      simpa [under] using length_suspensionsAll 0 taken
    simp only [code]
    refine ((first.under 0).within ⟨[_], _, rfl⟩).append length ((second.under 1).within ?_)
    -- Without statements the second block has no code, and else it stands before the last label.
    split
    · rename_i empty
      rw [List.isEmpty_iff.mp empty]
      exact List.nil_infix
    · exact (List.infix_append [_, _] _ [_]).trans (List.suffix_append _ _).isInfix
  | whileLoop condition body =>
    have inner := codes_lays (some ⟨label, label + 1⟩) (label + 2) point 0 body
    exact (inner.under 0).within ⟨_, _, rfl⟩
  | loop body =>
    have inner := codes_lays (some ⟨label, label + 1⟩) (label + 2) point 0 body
    simp only [code]
    exact (inner.under 0).within
      ((List.infix_append [_] _ [_]).trans (List.prefix_append _ _).isInfix)
  | yield location | waitUntil condition hint location | call callee args location =>
    intro i entry found
    -- The only suspension is the statement itself.
    obtain ⟨rfl, rfl⟩ : i = 0 ∧ entry = ([], _) := by
      rcases i with _ | i
      · exact ⟨rfl, (Option.some.inj found).symm⟩
      · cases found
    exact List.infix_refl _
  | _ =>
    intro i entry found
    cases found

theorem codes_lays (loop : Option LoopLabels) (label point place : Nat) (statements : List Stmt) :
    context.Lays point (suspensionsAll place statements)
      (context.codes loop label point statements) := by
  cases statements with
  | nil =>
    intro i entry found
    cases found
  | cons first rest =>
    have here := code_lays loop label point first
    have later := codes_lays loop (label + first.labelCount) (point + first.pointCount) (place + 1)
      rest
    have length : (under place first.suspensions).length = first.pointCount := by
      simpa [under] using length_suspensions first
    exact ((here.under place).within (List.prefix_append _ _).isInfix).append length
      (later.within (List.suffix_append _ _).isInfix)

end

end BodyContext

/-! ## The limit -/

/-- Related lists end together, and are related at each place before. -/
theorem forall₂_getElem? {α β : Type} {relation : α → β → Prop} {one : List α} {other : List β}
    (related : List.Forall₂ relation one other) (i : Nat) :
    one[i]? = none ∧ other[i]? = none ∨
      ∃ left right, one[i]? = some left ∧ other[i]? = some right ∧ relation left right := by
  induction related generalizing i with
  | nil => exact .inl ⟨rfl, rfl⟩
  | @cons left right _ _ here _ ih =>
    cases i with
    | zero => exact .inr ⟨left, right, rfl, rfl, here⟩
    | succ i => exact ih i

namespace Model

variable {model : Model} {fault : Located LoweringError}

/-- A coroutine is refused at a suspension that is one too many. -/
def RefusedAt (coroutine : Coroutine) (excess : Address × Stmt) (fault : Located LoweringError) :
    Prop :=
  (Stmt.suspensionsAll 0 coroutine.body)[maxPoints]? = some excess ∧
    fault.value = .suspensionLimitExceeded coroutine.path.dotted ∧
    excess.2.location? = some fault.location

/-- A coroutine has no state machine if it has too many suspensions. -/
theorem stateMachine_eq_error {first : StaticId} {coroutine : Coroutine} :
    model.stateMachine first coroutine = .error fault ↔
      ∃ excess, RefusedAt coroutine excess fault := by
  -- There is a point with the number of the limit exactly if there is a suspension with it.
  have described := Stmt.pointsAll_described (hoistVar first coroutine.locals.length) 0 coroutine.body
  rcases forall₂_getElem? described maxPoints with
    ⟨missing, within⟩ | ⟨excess, point, present, beyond, describes⟩
  · constructor
    · intro failed
      simp only [stateMachine, within] at failed
      cases failed
    · rintro ⟨excess, present, -⟩
      cases missing.symm.trans present
  · constructor
    · intro failed
      simp only [stateMachine, beyond] at failed
      cases failed
      exact ⟨excess, present, rfl, describes.location⟩
    · rintro ⟨other, known, named, located⟩
      obtain rfl := Option.some.inj (present.symm.trans known)
      have place := Option.some.inj (describes.location.symm.trans located)
      obtain ⟨value, location⟩ := fault
      cases named
      cases place
      simp only [stateMachine, beyond]
      rfl

/-- The first coroutine with too many suspensions is refused. -/
theorem stateMachines_eq_error {coroutines : List Coroutine} {first : StaticId} :
    model.stateMachines first coroutines = .error fault ↔
      ∃ (id : Nat) (coroutine : Coroutine) (excess : Address × Stmt),
        coroutines[id]? = some coroutine ∧ RefusedAt coroutine excess fault ∧
        ∀ earlier < id, ∀ other, coroutines[earlier]? = some other →
          Stmt.pointCounts other.body ≤ maxPoints := by
  induction coroutines generalizing first with
  | nil =>
    constructor
    · intro failed
      cases failed
    · rintro ⟨id, coroutine, excess, found, -⟩
      cases found
  | cons head rest ih =>
    rw [stateMachines, bind_eq_error, stateMachine_eq_error]
    constructor
    · rintro (⟨excess, refused⟩ | ⟨machine, made, later⟩)
      · refine ⟨0, head, excess, rfl, refused, fun earlier small => ?_⟩
        exact absurd small (Nat.not_lt_zero earlier)
      · -- The first coroutine is fine, and what is said of the others moves on by one.
        rcases bind_eq_error.mp later with failed | ⟨_, -, given⟩
        · obtain ⟨id, coroutine, excess, found, refused, others⟩ := ih.mp failed
          refine ⟨id + 1, coroutine, excess, found, refused, fun earlier small other known => ?_⟩
          cases earlier with
          | zero =>
            cases known
            exact (stateMachine_eq_ok made).1
          | succ earlier => exact others earlier (by omega) other known
        · cases given
    · rintro ⟨id, coroutine, excess, found, refused, others⟩
      cases id with
      | zero =>
        cases found
        exact .inl ⟨excess, refused⟩
      | succ id =>
        have fine := others 0 (Nat.succ_pos id) head rfl
        refine .inr ?_
        cases made : model.stateMachine first head with
        | error early =>
          obtain ⟨excess, exceeds, -⟩ := stateMachine_eq_error.mp made
          have beyond := (List.getElem?_eq_some_iff.mp exceeds).1
          rw [Stmt.length_suspensionsAll] at beyond
          omega
        | ok machine =>
          refine ⟨machine, rfl, bind_eq_error.mpr (.inl (ih.mpr ?_))⟩
          refine ⟨id, coroutine, excess, found, refused, fun earlier small other known => ?_⟩
          exact others (earlier + 1) (by omega) other known

theorem lower_eq_error : model.lower = .error fault ↔
    model.stateMachines model.statics.length model.coroutines = .error fault := by
  rw [lower, bind_eq_error]
  constructor
  · rintro (failed | ⟨_, -, given⟩)
    · exact failed
    · cases given
  · exact .inl

/--
The state machine of a coroutine has its suspensions for points, in the order of the text.

Local variables are kept from a first static variable on, and replaced by these.
-/
structure Numbered (program : Program) (id : CoroutineId) (coroutine : Coroutine)
    (listed : List (Address × Stmt)) (machine : StateMachine) (first : StaticId) : Prop where
  hoisted : machine.hoisted = List.range' first coroutine.locals.length
  kept : ∀ place known, coroutine.locals[place]? = some known →
    program.model.statics[first + place]? =
      some ⟨coroutine.path.member known.name, .coroutine id, known.type, known.length, false,
        none, known.hint, known.location⟩
  points : List.Forall₂ (fun entry point =>
    entry.2.Describes (hoistVar first coroutine.locals.length) point) listed machine.points
  code : ∀ i entry, listed[i]? = some entry →
    BodyContext.suspension ⟨hoistVar first coroutine.locals.length, program.model.parameters, true⟩
      i entry.2 <:+: machine.code
  width : machine.width = .byte ↔ listed.length ≤ 254

/-- Each coroutine of a lowered program is numbered in the order of the text. -/
theorem LowersTo.numbered {program : Program} (lowered : model.LowersTo program)
    {id : CoroutineId} {coroutine : Coroutine} (found : model.coroutines[id]? = some coroutine) :
    Numbered program id coroutine (Stmt.suspensionsAll 0 coroutine.body)
      (model.machineOf id coroutine) (model.firstHoisted id) where
  hoisted := rfl
  kept place known listed := by
    rw [lowered.hoisted]
    exact hoist_local found listed
  points := by
    rw [← hoistOwn_eq found]
    exact Stmt.pointsAll_described _ 0 coroutine.body
  code i entry listed := by
    -- Variables that are added change no parameters.
    have same : program.model.parameters = model.parameters := by rw [lowered.hoisted]; rfl
    have lays := (model.coroutineContext id).codes_lays none 0 0 0 coroutine.body i entry listed
    rw [Nat.zero_add] at lays
    rw [same, ← hoistOwn_eq found]
    exact lays.trans (List.prefix_append _ _).isInfix
  width := by
    rw [StateMachine.width, length_points_machineOf, Stmt.length_suspensionsAll,
      StateWidth.forPoints]
    split <;> simp_all [bytePoints]

/--
Suspension points are numbered in the order of the text, and there are at most 256 of them.

Lowering fails exactly if some coroutine has more. The fault then names the first such coroutine, at
its suspension number 257. If none has more, each point has the number, the kind and the place of
its suspension, with local variables replaced by the static variables that keep them.
-/
theorem lower_numbers_points (model : Model) :
    (∀ coroutine ∈ model.coroutines, ∃! listed, Stmt.InTextOrder coroutine.body listed) ∧
    ((∃ fault, model.lower = .error fault) ↔ ∃ coroutine ∈ model.coroutines, ∃ listed,
      Stmt.InTextOrder coroutine.body listed ∧ 256 < listed.length) ∧
    (∀ fault, model.lower = .error fault → ∃ (id : CoroutineId) (coroutine : Coroutine)
      (listed : List (Address × Stmt)) (excess : Address × Stmt),
      model.coroutines[id]? = some coroutine ∧ Stmt.InTextOrder coroutine.body listed ∧
      listed[256]? = some excess ∧
      (∀ earlier < id, ∀ (other : Coroutine) others, model.coroutines[earlier]? = some other →
        Stmt.InTextOrder other.body others → others.length ≤ 256) ∧
      fault.value = .suspensionLimitExceeded coroutine.path.dotted ∧
      excess.2.location? = some fault.location) ∧
    ∀ program, model.lower = .ok program →
      program.coroutines.length = model.coroutines.length ∧
      ∀ (id : CoroutineId) (coroutine : Coroutine) listed,
        model.coroutines[id]? = some coroutine → Stmt.InTextOrder coroutine.body listed →
        ∃ machine first, program.coroutines[id]? = some machine ∧
          Numbered program id coroutine listed machine first := by
  -- There is one list of suspensions, whose length is the number of points.
  have listing := fun coroutine : Coroutine => Stmt.suspensionsAll_inTextOrder coroutine.body
  have failure := fun fault (failed : model.lower = .error fault) =>
    stateMachines_eq_error.mp (lower_eq_error.mp failed)
  refine ⟨fun coroutine _ => ⟨_, listing coroutine, fun _ order => order.eq⟩, ⟨?_, ?_⟩, ?_, ?_⟩
  · rintro ⟨fault, failed⟩
    obtain ⟨id, coroutine, excess, found, ⟨present, -⟩, -⟩ := failure fault failed
    exact ⟨coroutine, List.mem_of_getElem? found, _, listing coroutine,
      (List.getElem?_eq_some_iff.mp present).1⟩
  · rintro ⟨coroutine, member, listed, order, many⟩
    cases lowered : model.lower with
    | error fault => exact ⟨fault, rfl⟩
    | ok program =>
      have limited := (lower_lowersTo lowered).limited coroutine member
      rw [order.eq, Stmt.length_suspensionsAll] at many
      exact absurd many (Nat.not_lt.mpr limited)
  · intro fault failed
    obtain ⟨id, coroutine, excess, found, ⟨present, refused⟩, fine⟩ := failure fault failed
    refine ⟨id, coroutine, _, excess, found, listing coroutine, present, ?_, refused⟩
    intro earlier small other others known order
    rw [order.eq, Stmt.length_suspensionsAll]
    exact fine earlier small other known
  · intro program done
    have lowered := lower_lowersTo done
    refine ⟨lowered.length_coroutines, fun id coroutine listed found order => ?_⟩
    refine ⟨_, _, ?_, order.eq ▸ lowered.numbered found⟩
    rw [lowered.coroutines, found]
    rfl

end Model

/-- A thread that yields 256 times in a loop, and once more behind it. -/
def Coroutine.yielding : Coroutine :=
  { (default : Coroutine) with
    path := .ofName "t"
    body := [.loop (List.replicate 256 (.yield default)), .yield ⟨⟨2, 1⟩, ⟨2, 6⟩⟩] }

/-- A model with nothing but this thread. -/
def Model.yielding : Model :=
  { (default : Model) with coroutines := [.yielding] }

/-- The last yield is one too many. -/
theorem Model.yielding_refused : ∃ fault, yielding.lower = .error fault ∧
    fault = ⟨.suspensionLimitExceeded "t", ⟨⟨2, 1⟩, ⟨2, 6⟩⟩⟩ := by
  obtain ⟨-, exceeds, told, -⟩ := lower_numbers_points yielding
  have many : 256 < (Stmt.suspensionsAll 0 Coroutine.yielding.body).length := by
    rw [Stmt.length_suspensionsAll]
    decide +kernel
  obtain ⟨fault, failed⟩ := exceeds.mpr
    ⟨.yielding, List.mem_singleton_self _, _, Stmt.suspensionsAll_inTextOrder _, many⟩
  obtain ⟨id, coroutine, listed, excess, found, order, known, -, named, located⟩ :=
    told fault failed
  -- There is only one coroutine, whose last suspension the fault tells.
  cases id with
  | succ id => cases found
  | zero =>
    cases found
    have last : ((Stmt.suspensionsAll 0 Coroutine.yielding.body)[256]?.bind fun entry =>
        entry.2.location?) = some ⟨⟨2, 1⟩, ⟨2, 6⟩⟩ := by
      decide +kernel
    rw [← order.eq, known, Option.bind_some, located] at last
    obtain ⟨value, location⟩ := fault
    cases named
    cases last
    exact ⟨_, failed, rfl⟩

end Coro
