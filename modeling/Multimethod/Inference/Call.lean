import Multimethod.Inference.Basic

/-!
# Typing calls

A call is resolved; for each entry of the resolution the specialization that it leads to is
created if need be and visited, and the call's type is the union of the answers. What `visit`
answers for a specialization is a parameter.
-/

namespace Multimethod.Infer

open Inference

variable (ctx : Context) (visit : SpecId → Infer TypeId)

def union (a b : TypeId) : Infer TypeId := onTypes (TypeTable.union a b)

/-- The specialization with a given key, created if there is none. -/
def specialize (key : SpecKey) : Infer SpecId :=
  modifyGet fun s =>
    let (id, created, specs) := s.specs.demand key
    (id, { s with specs, changed := s.changed || created })

/-- Visit the initializers that an object of type `object` is given, the last one being the one
that is run. -/
def visitInitializers (object : TypeId) (args : List TypeId) :
    Option SpecId → List MethodId → Infer (Option SpecId)
  | last, [] => pure last
  | _, m :: ms => do
    let id ← specialize ⟨m, some object, args⟩
    let _ ← visit id
    visitInitializers object args (some id) ms

/-- `C.new(args)`: an object of class `c`, initialized. Without any initializer there must be no
arguments. -/
def inferCreation (c : ClassId) (args : List TypeId) (span : Span) : Infer (Callee × TypeId) := do
  let object ← onTypes (TypeTable.exact c)
  let g ← registry ctx
  let defined := g.methods.understands g.hierarchy (← get).types ctx.core.initializer object
  if !defined && args.isEmpty then return (.new c none, object)
  else
    let resolution ← resolving (g.resolve ctx.core.initializer (some object) args span)
    let initializer ← visitInitializers visit object args none resolution.methods
    return (.new c initializer, object)

/-- The target of one entry of a resolution, and the type of what it returns. -/
def inferEntry (span : Span) (e : ResolutionEntry) : Infer (Callee × TypeId) := do
  match e.target with
  | .method m =>
    let id ← specialize ⟨m, e.receiver, e.args⟩
    return (.specialization id, ← visit id)
  | .allocate c => return (.allocate c, ← onTypes (TypeTable.exact c))
  | .new c => inferCreation ctx visit c e.args span

/-- The type of a call, `a` being the union so far, and its dispatch table. -/
def inferEntries (span : Span) :
    TypeId → DispatchTable → Resolution → Infer (TypeId × DispatchTable)
  | a, table, [] => pure (a, table)
  | a, table, e :: es => do
    let (target, b) ← inferEntry ctx visit span e
    let a ← union a b
    inferEntries span a (table.insert ⟨e.receiver, e.args, target⟩) es

/-- Type a call on a receiver, or on `self` or a free function where `self` has type `self`. -/
def inferCall (receiver : Option TypeId) (self : TypeId) (method : Name) (args : List TypeId)
    (span : Span) : Infer (TypeId × DispatchTable) := do
  let g ← registry ctx
  let resolution ← resolving <|
    match receiver with
    | some a => g.resolve method (some a) args span
    | none => g.resolveSend method (some self) args span
  inferEntries ctx visit span .never .empty resolution

end Multimethod.Infer
