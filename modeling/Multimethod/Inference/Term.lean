import Multimethod.Inference.Call
import Multimethod.Inference.Local
import Multimethod.Hierarchy.Ivar

/-!
# Typing expressions

A term is typed in evaluation order. Nothing is typed that comes after something without a value.
The body records, for each expression, the union of the types it was given, and for each call the
rows of its dispatch table.
-/

namespace Multimethod.InferIn

open Inference

variable (ctx : Context) (visit : SpecId → Infer TypeId)

/-- Type an expression and add the type to what is recorded of it. -/
def recorded (site : Site) (x : InferIn TypeId) : InferIn TypeId := do
  let a ← x
  let known := (← scope).body.exprTypes[site.id]?
  let all ← union (known.getD .never) a
  modifyScope fun s => { s with body := { s.body with
    exprTypes := s.body.exprTypes.insert site.id all } }
  return a

/-- Widen a local by what is assigned to it. -/
def assignLocal (n : Name) (a : TypeId) : InferIn Unit := do
  if a ≠ .never then setLocal n (← union ((← local? n).getD .never) a)

/-- The type of an instance variable; none may be unassigned for certain. -/
def readIvar (n : Name) : InferIn TypeId := do
  match (← scope).selfClass with
  | none => return .nil
  | some c =>
    let assigned := (← get).1.hierarchy.ivarType c n
    onTypes (TypeTable.orNil (assigned.getD .never))

/-- Widen an instance variable by what is assigned to it. -/
def assignIvar (n : Name) (a : TypeId) : InferIn Unit := do
  match (← scope).selfClass with
  | none => return
  | some c =>
    if a ≠ .never then
      let (changed, hierarchy) ← onTypes ((← get).1.hierarchy.assignIvar c n a)
      modify fun (s, scope) => ({ s with hierarchy, changed := s.changed || changed }, scope)

/-- The type of a class used as a value. -/
def inferConst (site : Site) (n : Name) : InferIn TypeId := do
  let s := (← get).1
  match s.hierarchy.requireClass ctx.names n site.span with
  | .ok c => onTypes (TypeTable.classObject c)
  | .error e => throw e

/-- Type a call whose receiver and arguments are typed, and record its dispatch rows. -/
def inferCallAt (site : Site) (receiver : Option TypeId) (method : Name) (args : List TypeId) :
    InferIn TypeId := do
  let self := (← scope).self.getD .object
  let (a, table) ← lift (Infer.inferCall ctx visit receiver self method args site.span)
  modifyScope fun s => { s with body := s.body.addRows site.id table }
  return a

/-- The type of a primitive operation. Arithmetic gives an integer only for integers. -/
def inferPrimitive (site : Site) (op : Primitive) (operands : List TypeId) :
    InferIn TypeId := do
  if op.isComparison then return .bool
  match op with
  | .toInt => return .int
  | .toFloat => return .float
  | _ =>
    let number ← union .int .float
    let s := (← get).1
    match operands.find? fun a => !s.hierarchy.isSubtype s.types a number with
    | some bad =>
      let text := s.hierarchy.typeText s.types ctx.names
      throw ⟨.restrictionViolation op.methodName "self" (text number) (text bad), site.span⟩
    | none =>
      if operands.all (· = .int) then return .int
      else if operands.contains .float then return .float
      else return number

/-- Type a loop over and over until its locals stay as they are; then a local that was not bound
once the test had run the first time may be `nil`. After the current round `left` more are
allowed. -/
def inferLoop (site : Site) (test : InferIn TypeId) (body : InferIn TypeId) :
    Nat → Option Locals → InferIn Unit
  | left, bound => do
    let before ← locals
    let a ← test
    let bound := bound.getD (← locals)
    if a ≠ .never then
      let _ ← body
    if (← locals) = before then orNilExcept bound
    else match left with
      | 0 => throw ⟨.divergence "while" (max 1 ctx.limits.loopRounds), site.span⟩
      | left + 1 => inferLoop site test body left (some bound)

/-- Type what comes second only if what comes first has a value. -/
def unlessNever (a : TypeId) (x : InferIn TypeId) : InferIn TypeId :=
  if a = .never then pure .never else x

mutual

/-- The type of a term. -/
def inferTerm : Term → InferIn TypeId
  | .nil site => recorded site (pure .nil)
  | .bool site _ => recorded site (pure .bool)
  | .int site _ => recorded site (pure .int)
  | .float site _ => recorded site (pure .float)
  | .self site => recorded site do return (← scope).self.getD .object
  | .var site n => recorded site do return (← local? n).getD .nil
  | .assign site n value => recorded site do
    let a ← inferTerm value
    assignLocal n a
    return a
  | .ivar site n => recorded site (readIvar n)
  | .setIvar site n value => recorded site do
    let a ← inferTerm value
    assignIvar n a
    return a
  | .const site n => recorded site (inferConst ctx site n)
  | .call site receiver method args => recorded site do
    let a ← inferTerm receiver
    unlessNever a do
      match ← inferArgs args with
      | none => return .never
      | some as => inferCallAt ctx visit site (some a) method as
  | .send site method args => recorded site do
    match ← inferArgs args with
    | none => return .never
    | some as => inferCallAt ctx visit site none method as
  | .ifThen site test yes => recorded site do
    let a ← inferTerm test
    unlessNever a do
      let entry ← locals
      let b ← narrowing test (inferTerm yes)
      joining entry b (pure .nil)
  | .ifElse site test yes no => recorded site do
    let a ← inferTerm test
    unlessNever a do
      let entry ← locals
      let b ← narrowing test (inferTerm yes)
      joining entry b (inferTerm no)
  | .loop site test body => recorded site do
    inferLoop ctx site (inferTerm test) (inferTerm body) (ctx.limits.loopRounds - 1) none
    return .nil
  | .andAlso site left right | .orElse site left right => recorded site do
    let a ← inferTerm left
    unlessNever a do
      let bound ← locals
      let b ← inferTerm right
      orNilExcept bound
      union a b
  | .ret site => recorded site do
    let returns ← union (← scope).returns .nil
    modifyScope fun s => { s with returns }
    return .never
  | .retValue site value => recorded site do
    let a ← inferTerm value
    let returns ← union (← scope).returns a
    modifyScope fun s => { s with returns }
    return .never
  | .block site stmts => recorded site (inferStmts .nil stmts)
  | .primitive site op args => recorded site do
    match ← inferArgs args with
    | none => return .never
    | some as => inferPrimitive ctx site op as

/-- The types of some arguments; nothing if one of them has no value. -/
def inferArgs : List Term → InferIn (Option (List TypeId))
  | [] => return some []
  | t :: ts => do
    let a ← inferTerm t
    if a = .never then return none
    else return (← inferArgs ts).map (a :: ·)

/-- The type of a sequence of statements that follow one of type `last`. -/
def inferStmts (last : TypeId) : List Term → InferIn TypeId
  | [] => return last
  | t :: ts => do
    let a ← inferTerm t
    if a = .never then return .never else inferStmts a ts

end

end Multimethod.InferIn
