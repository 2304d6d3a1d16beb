import Multimethod.Dispatch
import Multimethod.Type.Basic

/-!
# Specializations

A method is checked once for every receiver type and every list of argument types that some call
passes it: each is a specialization. It carries the type of every expression of the body and the
dispatch table of every call in it. Specializations are numbered in the order of creation, there
is one for each key, and one that is frozen does not change any more.
-/

namespace Multimethod

/-- What a body was found to do. -/
structure Body where
  /-- The type of each expression that was reached. -/
  exprTypes : Map .expr TypeId := ∅
  /-- The dispatch table of each call that was reached. -/
  dispatch : Map .expr DispatchTable := ∅
  /-- The final type of each parameter, assignments to it included. -/
  paramTypes : List TypeId := []

namespace Body

/-- The dispatch table of a call; one that was not reached has no rows. -/
def dispatchAt (b : Body) (e : ExprId) : DispatchTable := b.dispatch[e]?.getD .empty

/-- Add rows to the dispatch table of a call. -/
def addRows (b : Body) (e : ExprId) (t : DispatchTable) : Body :=
  { b with dispatch := b.dispatch.insert e ((b.dispatchAt e).merge t) }

end Body

/-- Which specialization of which method. The types are members, never unions. -/
structure SpecKey where
  method : MethodId
  receiver : Option TypeId
  args : List TypeId
deriving DecidableEq, Repr

/-- What tells a key from all others. -/
def SpecKey.code (k : SpecKey) : List Nat := k.method.index :: callCode k.receiver k.args

theorem SpecKey.code_inj {k k' : SpecKey} : k.code = k'.code ↔ k = k' := by
  cases k; cases k'; simp [code, callCode_inj]

/-- How far a specialization has come. -/
inductive Stage where
  /-- Created, or between two evaluations. -/
  | idle
  /-- Its body is being evaluated. -/
  | running
  | frozen
deriving DecidableEq, Repr

structure Specialization where
  key : SpecKey
  /-- The type of what it returns, as far as is known. -/
  returnType : TypeId := .never
  stage : Stage := .idle
  body : Body := {}
  /-- The answers to the calls that reached it during its last evaluation, latest first. -/
  answers : List TypeId := []
  /-- The last pass in which its body was evaluated without an error. -/
  donePass : Option Nat := none

/-- The specializations of a program. -/
structure Specializations where
  entries : Catalog Specialization (·.key.code) := ∅

namespace Specializations

def size (ss : Specializations) : Nat := ss.entries.size

def isEmpty (ss : Specializations) : Bool := ss.size = 0

def ids (ss : Specializations) : List SpecId := (List.range ss.size).map (⟨·⟩)

def get? (ss : Specializations) (s : SpecId) : Option Specialization :=
  ss.entries.get? s.index

/-- The specialization with a given key. -/
def find? (ss : Specializations) (key : SpecKey) : Option SpecId :=
  (ss.entries.find? key.code).map (⟨·⟩)

/-- The specialization with a given key, created if there is none, and whether it was created. -/
def demand (ss : Specializations) (key : SpecKey) : SpecId × Bool × Specializations :=
  match h : ss.entries.find? key.code with
  | some i => (⟨i⟩, false, ss)
  | none => (⟨ss.size⟩, true, ⟨ss.entries.push { key } h⟩)

/-- Change what is known of a specialization, but not its key. -/
def modify (ss : Specializations) (s : SpecId) (f : Specialization → Specialization)
    (h : ∀ i, (f i).key = i.key := by intro _; rfl) : Specializations :=
  ⟨ss.entries.modify s.index f fun i => congrArg SpecKey.code (h i)⟩

/-- The specializations of a method, in the order of creation. -/
def ofMethod (ss : Specializations) (m : MethodId) : List SpecId :=
  ss.ids.filter fun s => (ss.get? s).any (·.key.method = m)

end Specializations

/-- Freeze a specialization. One that was never found to return a value returns `nil`. -/
def Specialization.freeze (s : Specialization) : Specialization :=
  if s.stage = .frozen then s
  else
    { s with
      stage := .frozen
      returnType := if s.returnType = .never then .nil else s.returnType }

theorem Specialization.key_freeze (s : Specialization) : s.freeze.key = s.key := by
  unfold freeze; split <;> rfl

namespace Specializations

def freeze (ss : Specializations) (s : SpecId) : Specializations :=
  ss.modify s Specialization.freeze Specialization.key_freeze

def freezeAll (ss : Specializations) : Specializations :=
  ⟨ss.entries.map Specialization.freeze fun i => congrArg SpecKey.code i.key_freeze⟩

end Specializations

end Multimethod
