import Coro.Proofs.Program.Reference
import Coro.Proofs.Resolution.Lookup

/-!
A body refers to nothing that it does not mention.

Whatever may be said of all names in a body can be said of all references in it, so that what a body
reaches is decided by what its names stand for.
-/

namespace Coro

/-- An entity may be referred to in all ways that its kind allows. -/
def References.Admits (granted : References) : Entity → Prop
  | .static id => granted.var (.static id)
  | .localVar id => granted.var (.localVar id)
  | .external id => granted.var (.external id) ∧ granted.callee (.external id)
  | .function id => granted.callee (.function id)
  | .coroutine id => granted.subroutine id
  -- Hooks are never referred to.
  | .hook _ => True

/-- What is mentioned may be referred to. -/
def References.AdmitsMention (granted : References) : Mention Entity LocalId → Prop
  | .use entity => granted.Admits entity
  | .declare id => granted.var (.localVar id)

section Mentions

variable {granted : References}

theorem admits_of_uses {entities : List Entity}
    (admitted : ∀ mention ∈ entities.map Mention.use, granted.AdmitsMention mention) :
    ∀ entity ∈ entities, granted.Admits entity :=
  fun _ member => admitted _ (List.mem_map_of_mem member)

theorem References.Admits.var {var : Var} (admitted : granted.Admits var.entity) :
    granted.var var := by
  cases var with
  | external id => exact admitted.1
  | _ => exact admitted

theorem References.Admits.callee {callee : Callee} (admitted : granted.Admits callee.entity) :
    granted.callee callee := by
  cases callee with
  | external id => exact admitted.2
  | function id => exact admitted

mutual

/-- An expression refers to no more than its entities. -/
theorem Expr.refers_of_admitted (expr : Expr)
    (admitted : ∀ entity ∈ expr.entities, granted.Admits entity) : expr.Refers granted := by
  cases expr with
  | const value => trivial
  | read var => exact (admitted _ List.mem_cons_self).var
  | element var index =>
    obtain ⟨here, inner⟩ := List.forall_mem_cons.mp admitted
    exact ⟨here.var, Expr.refers_of_admitted index inner⟩
  | call callee args =>
    obtain ⟨here, inner⟩ := List.forall_mem_cons.mp admitted
    exact ⟨here.callee, Expr.refersAll_of_admitted args inner⟩
  | unary op operand =>
    have refers := Expr.refers_of_admitted operand admitted
    exact refers
  | binary op left right =>
    obtain ⟨first, second⟩ := List.forall_mem_append.mp admitted
    exact ⟨Expr.refers_of_admitted left first, Expr.refers_of_admitted right second⟩

theorem Expr.refersAll_of_admitted (exprs : List Expr)
    (admitted : ∀ entity ∈ Expr.entitiesAll exprs, granted.Admits entity) :
    Expr.RefersAll granted exprs := by
  cases exprs with
  | nil => trivial
  | cons first rest =>
    obtain ⟨here, later⟩ := List.forall_mem_append.mp admitted
    exact ⟨Expr.refers_of_admitted first here, Expr.refersAll_of_admitted rest later⟩

end

theorem Expr.refersOpt_of_admitted {value : Option Expr}
    (admitted : ∀ entity ∈ Expr.entitiesOpt value, granted.Admits entity) :
    ∀ expr, value = some expr → expr.Refers granted := by
  rintro expr rfl
  exact expr.refers_of_admitted admitted

mutual

/-- A statement refers to no more than it mentions. -/
theorem Stmt.refers_of_admitted (statement : Stmt)
    (admitted : ∀ mention ∈ statement.mentions, granted.AdmitsMention mention) :
    statement.Refers granted := by
  cases statement with
  | letVar id value =>
    obtain ⟨used, own⟩ := List.forall_mem_append.mp admitted
    exact ⟨own _ List.mem_cons_self, Expr.refersOpt_of_admitted (admits_of_uses used)⟩
  | waitUntil condition hint location =>
    exact condition.refers_of_admitted (admits_of_uses admitted)
  | call callee args location =>
    obtain ⟨here, inner⟩ := List.forall_mem_cons.mp (admits_of_uses admitted)
    exact ⟨here, Expr.refersAll_of_admitted args inner⟩
  | ifThen condition taken otherwise =>
    obtain ⟨front, last⟩ := List.forall_mem_append.mp admitted
    obtain ⟨test, first⟩ := List.forall_mem_append.mp front
    exact ⟨condition.refers_of_admitted (admits_of_uses test),
      Stmt.refersAll_of_admitted taken first, Stmt.refersAll_of_admitted otherwise last⟩
  | whileLoop condition body =>
    obtain ⟨test, inner⟩ := List.forall_mem_append.mp admitted
    exact ⟨condition.refers_of_admitted (admits_of_uses test),
      Stmt.refersAll_of_admitted body inner⟩
  | loop body =>
    have refers := Stmt.refersAll_of_admitted body admitted
    exact refers
  | returnFrom value => exact Expr.refersOpt_of_admitted (admits_of_uses admitted)
  | assign place op value =>
    obtain ⟨here, inner⟩ := List.forall_mem_cons.mp (admits_of_uses admitted)
    obtain ⟨index, computed⟩ := List.forall_mem_append.mp inner
    exact ⟨⟨here.var, Expr.refersOpt_of_admitted index⟩, value.refers_of_admitted computed⟩
  | eval expr => exact expr.refers_of_admitted (admits_of_uses admitted)
  | _ => trivial

theorem Stmt.refersAll_of_admitted (statements : List Stmt)
    (admitted : ∀ mention ∈ Stmt.mentionsAll statements, granted.AdmitsMention mention) :
    Stmt.RefersAll granted statements := by
  cases statements with
  | nil => trivial
  | cons first rest =>
    obtain ⟨here, later⟩ := List.forall_mem_append.mp admitted
    exact ⟨Stmt.refers_of_admitted first here, Stmt.refersAll_of_admitted rest later⟩

end

end Mentions

end Coro
