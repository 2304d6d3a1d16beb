import Multimethod.Expr.Term
import Multimethod.Resolution
import Multimethod.Specialization

/-!
# States of inference

Inference reads a fixed `Context` and grows an `Inference.State`: types, instance-variable types
and specializations. Within one body it also keeps a `Scope`: the types of the locals at the
current point and what was found so far. What is done to state and scope stays done when a type
error ends an evaluation. An evaluation without an answer (`none`) has run out of the budget for
nested specializations.
-/

namespace Multimethod

/-- Limits on the loops of inference; a loop that reaches its limit is reported. -/
structure Limits where
  /-- How often one specialization is evaluated in a row. -/
  wideningRounds : Nat := 32
  /-- How often the whole program is gone through. -/
  passes : Nat := 64
  /-- How often the body of one loop is typed in a row. -/
  loopRounds : Nat := 64
deriving DecidableEq, Repr

namespace Inference

/-- What inference reads and does not change. -/
structure Context where
  names : NameTable
  core : CoreNames
  methods : MethodTable
  /-- The expressions of the source as trees. -/
  terms : Array Term
  /-- The top-level statements. -/
  main : List Term
  limits : Limits

namespace Context

def term (ctx : Context) (e : ExprId) : Term := Arena.termAt ctx.terms e

end Context

/-- What inference grows. -/
structure State where
  types : TypeTable
  hierarchy : Hierarchy
  specs : Specializations := {}
  /-- The pass that is running. -/
  pass : Nat := 0
  /-- Whether this pass created a specialization or widened a return type or an instance
  variable. -/
  changed : Bool := false

/-- The types of the locals that may have been assigned. -/
abbrev Locals := Map .name TypeId

/-- The evaluation of one body: of a specialization or of the top level. -/
structure Scope where
  /-- The type of `self`; none at the top level and in free functions. -/
  self : Option TypeId := none
  /-- The class whose instance variables are meant. -/
  selfClass : Option ClassId := none
  locals : Locals := ∅
  /-- The union of the types of the values returned early. -/
  returns : TypeId := .never
  body : Body := {}

end Inference

open Inference

/-- A computation on the state that cannot fail. -/
abbrev Inference.Run := StateT Inference.State Option

/-- A computation on the state that may end in a type error. -/
abbrev Infer := ExceptT TypeError Inference.Run

/-- A computation within a body, not failing. -/
abbrev Inference.ScopeRun := StateT (Inference.State × Scope) Option

/-- A computation within a body that may end in a type error. -/
abbrev InferIn := ExceptT TypeError Inference.ScopeRun

namespace Infer

/-- Run a computation on the type table. -/
def onTypes {α : Type} (x : StateM TypeTable α) : Infer α :=
  modifyGet fun s =>
    let (a, types) := x s.types
    (a, { s with types })

/-- Run a computation on the type table that may end in a type error. -/
def resolving {α : Type} (x : ExceptT TypeError (StateM TypeTable) α) : Infer α := do
  match ← onTypes x.run with
  | .ok a => return a
  | .error e => throw e

/-- Run a computation and hand on how it ended. -/
def attempt {α : Type} (x : Infer α) : Infer (Except TypeError α) := ExceptT.lift x.run

/-- End as a computation ended. -/
def ended {α : Type} (r : Except TypeError α) : Infer α := ExceptT.mk (pure r)

/-- The tables that resolution reads. -/
def registry (ctx : Context) : Infer Registry := do
  return ⟨ctx.names, ctx.core, (← get).hierarchy, ctx.methods⟩

/-- Run a computation within a body, starting from `scope`. -/
def within {α : Type} (scope : Scope) (x : InferIn α) : Infer (α × Scope) := fun s => do
  let (r, s, scope) ← x (s, scope)
  return (r.map fun a => (a, scope), s)

end Infer

namespace InferIn

/-- Run a computation that has nothing to do with the scope. -/
def lift {α : Type} (x : Infer α) : InferIn α := fun (s, scope) => do
  let (r, s) ← x s
  return (r, s, scope)

def onTypes {α : Type} (x : StateM TypeTable α) : InferIn α := lift (Infer.onTypes x)

/-- Run a computation and hand on how it ended. -/
def attempt {α : Type} (x : InferIn α) : InferIn (Except TypeError α) := ExceptT.lift x.run

/-- End as a computation ended. -/
def ended {α : Type} (r : Except TypeError α) : InferIn α := ExceptT.mk (pure r)

def scope : InferIn Scope := return (← get).2

def modifyScope (f : Scope → Scope) : InferIn Unit := modify fun (s, scope) => (s, f scope)

def locals : InferIn Locals := return (← scope).locals

def setLocals (locals : Locals) : InferIn Unit := modifyScope fun s => { s with locals }

/-- The type of a local, if it may have been assigned. -/
def local? (n : Name) : InferIn (Option TypeId) := return (← locals)[n]?

def setLocal (n : Name) (a : TypeId) : InferIn Unit :=
  modifyScope fun s => { s with locals := s.locals.insert n a }

def union (a b : TypeId) : InferIn TypeId := onTypes (TypeTable.union a b)

end InferIn

end Multimethod
