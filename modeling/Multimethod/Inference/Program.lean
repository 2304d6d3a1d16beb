import Multimethod.Builder
import Multimethod.Hierarchy.Declare
import Multimethod.Inference.Visit

/-!
# Checking sources

`check` declares the classes of a source, registers its definitions and goes through its top level
until a pass changes nothing. Then every specialization is frozen and the top level typed once
more against the final return types. The result is a `Program`, which can be run even if there
were errors.
-/

namespace Multimethod

open Inference

/-- A checked source: no specialization changes any more. -/
structure Program where
  names : NameTable
  core : CoreNames
  types : TypeTable
  hierarchy : Hierarchy
  methods : MethodTable
  specs : Specializations
  /-- The expressions of the source as trees. -/
  terms : Array Term
  /-- The top-level statements. -/
  main : List Term
  /-- What the top level was found to do. -/
  mainBody : Body
  /-- The type of the last top-level statement, and of what the top level returns. -/
  mainType : TypeId
  /-- How many passes were run. -/
  passes : Nat

namespace Inference

/-- Type top-level statements one by one, after some errors and a statement of type `last`. A
statement that fails is reported, and has no value. -/
def inferStatements (ctx : Context) (visit : SpecId → Infer TypeId) (errors : List TypeError)
    (last : TypeId) : List Term → ScopeRun (List TypeError × TypeId)
  | [] => pure (errors, last)
  | t :: ts => do
    match ← (InferIn.inferTerm ctx visit t).run with
    | .ok a => inferStatements ctx visit errors a ts
    | .error e => inferStatements ctx visit (errors ++ [e]) .never ts

/-- A bound on how deeply evaluations can be nested. Those on the way are of different
specializations, so there are no more of them than keys: a method, a receiver that is missing, an
instance or a class object, and for each parameter an argument of these kinds. -/
def nestingBound (ctx : Context) (s : State) : Nat :=
  let parameters := ctx.methods.methods.foldl (fun n m => max n m.definition.params.length) 0
  ctx.methods.size * Nat.pow (2 * s.hierarchy.size + 1) (parameters + 1)

/-- What typing the top level gave. -/
structure TopResult where
  body : Body
  type : TypeId
  errors : List TypeError

/-- Type the top level once. -/
def inferTop (ctx : Context) : Run TopResult := fun s => do
  let visit := Infer.visit ctx (nestingBound ctx s)
  let ((errors, last), s, scope) ← inferStatements ctx visit [] .nil ctx.main (s, {})
  let (type, types) := TypeTable.union last scope.returns s.types
  return (⟨scope.body, type, errors⟩, { s with types })

/-- The known errors, and those of a later pass that are not among them. -/
def addErrors (known : List TypeError) : List TypeError → List TypeError
  | [] => known
  | e :: es => addErrors (if known.contains e then known else known ++ [e]) es

/-- What some passes through the program gave. -/
structure Passes where
  count : Nat := 0
  /-- Every error that some pass reported, in the order of the first report. -/
  errors : List TypeError := []
  /-- Whether the last pass changed nothing. -/
  converged : Bool := false
  /-- What the last pass made of the top level. -/
  last : Option TopResult := none

/-- Go through the program once more. -/
def runPass (ctx : Context) (r : Passes) : Run Passes := do
  modify fun s => { s with pass := r.count, changed := false }
  let top ← inferTop ctx
  return {
    count := r.count + 1, errors := addErrors r.errors top.errors
    converged := !(← get).changed, last := some top }

/-- Go through the program until a pass changes nothing, at most so many more times. -/
def runPasses (ctx : Context) : Nat → Passes → Run Passes
  | 0, r => return r
  | left + 1, r => do
    let r ← runPass ctx r
    if r.converged then return r else runPasses ctx left r

def freezeAll : Run Unit := modify fun s => { s with specs := s.specs.freezeAll }

/-- The errors of all passes, and the complaint if they did not converge. -/
def Passes.report (ctx : Context) (r : Passes) : List TypeError :=
  if r.converged then r.errors
  else r.errors ++ [⟨.divergence "<program>" ctx.limits.passes, .dummy⟩]

/-- Infer a whole program: what the passes gave, and the top level as typed at last. -/
def infer (ctx : Context) : Run (Passes × TopResult) := do
  let passes ← runPasses ctx ctx.limits.passes {}
  freezeAll
  let top ← inferTop ctx
  freezeAll
  return (passes, top)

end Inference

/-- What checking a source gives. -/
structure CheckResult where
  program : Program
  errors : List TypeError

/-- The classes and definitions of a source, registered; and the errors of doing so. -/
def register (names : NameTable) (source : Source) (limits : Limits) :
    List TypeError × Context × State :=
  let (core, names) := CoreNames.intern names
  let (hierarchy, types) := Hierarchy.initial core .initial
  let ((classErrors, hierarchy), types) := hierarchy.declare names source.classes types
  let ((methodErrors, methods), types) :=
    (MethodTable.addAll hierarchy names source.definitions).run .empty types
  let terms := source.arena.terms
  let main := source.main.map (Arena.termAt terms)
  (classErrors ++ methodErrors, { names, core, methods, terms, main, limits },
    { types, hierarchy })

/-- Check a source. Errors of registration do not keep the rest from being checked. -/
def check (names : NameTable) (source : Source) (limits : Limits) : Option CheckResult := do
  let (registrationErrors, ctx, s) := register names source limits
  let ((passes, top), s) ← Inference.infer ctx s
  return {
    program := {
      names := ctx.names, core := ctx.core, types := s.types, hierarchy := s.hierarchy
      methods := ctx.methods, specs := s.specs, terms := ctx.terms, main := ctx.main
      mainBody := top.body, mainType := top.type, passes := passes.count }
    errors := registrationErrors ++ passes.report ctx }

namespace Program

/-- The tables that resolution reads. -/
def registry (p : Program) : Registry := ⟨p.names, p.core, p.hierarchy, p.methods⟩

/-- The methods with a given name, in the order of registration. -/
def methodsNamed (p : Program) (n : Name) : List MethodId :=
  p.methods.ids.filter fun m => (p.methods.get? m).any (·.definition.name = n)

/-- The return type of the specialization with a given key. -/
def returnType? (p : Program) (key : SpecKey) : Option TypeId :=
  (p.specs.find? key).bind fun s => (p.specs.get? s).map (·.returnType)

/-- The union of two lists of types, position by position, as long as the first. -/
def unionEach : List TypeId → List TypeId → StateM TypeTable (List TypeId)
  | [], _ => pure []
  | as, [] => pure as
  | a :: as, b :: bs => return (← TypeTable.union a b) :: (← unionEach as bs)

/-- For each parameter of a method, the union of its final types in all specializations. -/
def parameterTypes (p : Program) (m : MethodId) : StateM TypeTable (List TypeId) :=
  let arity := ((p.methods.get? m).map (·.definition.params.length)).getD 0
  (p.specs.ofMethod m).foldlM (fun as s =>
    match p.specs.get? s with
    | some i => unionEach as i.body.paramTypes
    | none => pure as) (List.replicate arity .never)

def typeText (p : Program) (a : TypeId) : String := p.hierarchy.typeText p.types p.names a

end Program

end Multimethod
