import Multimethod.Inference.Term

/-!
# Visiting specializations

To visit a specialization is to ask for its return type. One that is being evaluated already, has
been evaluated in this pass or is frozen answers with the type that is stored; any other is
evaluated. If the result does not fit the stored type, that is widened, and if the specialization
was reached again meanwhile, so that some answers were too small, it is evaluated once more.
-/

namespace Multimethod.Infer

open Inference

variable (ctx : Context)

/-- The type of a parameter whose argument is left out: the type of its default, which must fit
the restriction. -/
def inferDefault (visit : SpecId → Infer TypeId) (m : Method) (key : SpecKey) (i : Nat)
    (p : Param) : InferIn TypeId := do
  match p.default with
  | none => return .nil
  | some d =>
    let term := ctx.term d
    let a ← InferIn.inferTerm ctx visit term
    match ← InferIn.onTypes (m.restriction i key.receiver) with
    | none => return a
    | some r =>
      let s := (← get).1
      if s.hierarchy.isSubtype s.types a r then return a
      else
        let text := s.hierarchy.typeText s.types ctx.names
        throw ⟨.restrictionViolation (ctx.names.text m.definition.name) (ctx.names.text p.name)
          (text r) (text a), term.span⟩

/-- Bind parameters from the one at position `i` on, to the types of the arguments or else of the
defaults. -/
def bindParams (visit : SpecId → Infer TypeId) (m : Method) (key : SpecKey) :
    Nat → List Param → InferIn Unit
  | _, [] => pure ()
  | i, p :: ps => do
    let a ← match key.args[i]? with
      | some a => pure a
      | none => inferDefault ctx visit m key i p
    InferIn.setLocal p.name a
    bindParams visit m key (i + 1) ps

/-- Type the parameters and the body of a method within a scope that has just been opened. -/
def inferBody (visit : SpecId → Infer TypeId) (m : Method) (key : SpecKey) : InferIn TypeId := do
  bindParams ctx visit m key 0 m.definition.params
  let a ← InferIn.inferTerm ctx visit (ctx.term m.definition.body)
  InferIn.modifyScope fun s => { s with body := { s.body with
    paramTypes := m.definition.params.map fun p => s.locals[p.name]?.getD .nil } }
  InferIn.union a (← InferIn.scope).returns

/-- Evaluate the body of a specialization once. -/
def evaluate (visit : SpecId → Infer TypeId) (key : SpecKey) : Infer (TypeId × Body) := do
  match ctx.methods.get? key.method with
  | none => return (.never, {})
  | some m =>
    let selfClass := key.receiver.bind (← get).types.instanceClass?
    let (a, scope) ← within { self := key.receiver, selfClass } (inferBody ctx visit m key)
    return (a, scope.body)

/-- Change what is known of a specialization, but not its key. -/
def modifySpec (s : SpecId) (f : Specialization → Specialization)
    (h : ∀ i, (f i).key = i.key := by intro _; rfl) : Infer Unit :=
  modify fun st => { st with specs := st.specs.modify s f h }

/-- What is stored of a specialization. -/
def spec? (s : SpecId) : Infer (Option Specialization) := return (← get).specs.get? s

/-- The return type that is stored for a specialization. -/
def storedType (s : SpecId) : Infer TypeId :=
  return ((← spec? s).map (·.returnType)).getD .never

/-- The complaint that a specialization was still widening when it reached the limit. -/
def divergence (key : SpecKey) : Infer TypeError := do
  let s ← get
  let signature := ctx.methods.signature s.hierarchy s.types ctx.names key.method
  let span := ((ctx.methods.get? key.method).map (·.definition.span)).getD .dummy
  return ⟨.divergence signature ctx.limits.wideningRounds, span⟩

/-- Evaluate a specialization until the stored return type has all the members of the result, or
no visit got an answer that was too small; at most so many times. -/
def widen (visit : SpecId → Infer TypeId) (s : SpecId) (key : SpecKey) : Nat → Infer TypeId
  | 0 => do throw (← divergence ctx key)
  | rounds + 1 => do
    modifySpec s fun i => { i with answers := [] }
    let (result, body) ← evaluate ctx visit key
    let provisional ← storedType s
    let widened ← union provisional result
    modifySpec s fun i => { i with body }
    if widened = provisional then return provisional
    else
      modifySpec s fun i => { i with returnType := widened }
      modify fun st => { st with changed := true }
      if (← spec? s).all (·.answers.isEmpty) then return widened
      else widen visit s key rounds

/-- Answer a visit, with `run` for a specialization that has to be evaluated. -/
def visitWith (run : SpecId → SpecKey → Infer TypeId) (s : SpecId) : Infer TypeId := do
  match ← spec? s with
  | none => return .never
  | some i =>
    match i.stage with
    | .running =>
      modifySpec s fun i => { i with answers := i.returnType :: i.answers }
      return i.returnType
    | .frozen => return i.returnType
    | .idle =>
      let pass := (← get).pass
      if i.donePass = some pass then return i.returnType
      else
        modifySpec s fun i => { i with stage := .running }
        let result ← attempt (run s i.key)
        modifySpec s fun i => { i with
          stage := .idle
          donePass := if result.isOk then some pass else none }
        ended result

/-- Visit a specialization; at most `depth` evaluations may be nested in each other. -/
def visit : Nat → SpecId → Infer TypeId
  | 0 => visitWith fun _ _ _ => none
  | depth + 1 => visitWith fun s key => widen ctx (visit depth) s key ctx.limits.wideningRounds

end Multimethod.Infer
