import Multimethod.Catalog
import Multimethod.Handle

/-!
# Dispatch tables

The table of a call site says, for the exact types of the receiver and the arguments, where the
call goes. It is a finite map whose rows stay in the order in which their keys first came in.
-/

namespace Multimethod

/-- Where a row of a dispatch table leads. -/
inductive Callee where
  | specialization (s : SpecId)
  /-- A fresh object, no instance variable set. -/
  | allocate (c : ClassId)
  /-- A fresh object; its initializer, if there is any, is run on the arguments. -/
  | new (c : ClassId) (initializer : Option SpecId)
deriving DecidableEq, Repr

/-- The target of a call for exact types. -/
structure Row where
  receiver : Option TypeId
  args : List TypeId
  target : Callee
deriving DecidableEq, Repr

/-- What tells the types of one call from those of another. -/
def callCode (receiver : Option TypeId) (args : List TypeId) : List Nat :=
  (match receiver with
    | none => 0
    | some a => a.index + 1) :: args.map Handle.index

theorem callCode_inj {receiver receiver' : Option TypeId} {args args' : List TypeId} :
    callCode receiver args = callCode receiver' args' ↔ receiver = receiver' ∧ args = args' := by
  cases receiver <;> cases receiver' <;> simp [callCode]

structure DispatchTable where
  rows : Catalog Row fun r => callCode r.receiver r.args

namespace DispatchTable

def empty : DispatchTable := ⟨∅⟩

/-- The rows in the order in which their types first came in. -/
def toList (t : DispatchTable) : List Row := t.rows.entries.toList

def size (t : DispatchTable) : Nat := t.rows.size

def isEmpty (t : DispatchTable) : Bool := t.size = 0

/-- Add a row, replacing the row for the same types. -/
def insert (t : DispatchTable) (r : Row) : DispatchTable := ⟨t.rows.put r⟩

/-- Add the rows of another table, in their order. -/
def merge (t u : DispatchTable) : DispatchTable := u.rows.entries.foldl insert t

/-- The target for exact types. -/
def find? (t : DispatchTable) (receiver : Option TypeId) (args : List TypeId) :
    Option Callee :=
  ((t.rows.find? (callCode receiver args)).bind t.rows.get?).map (·.target)

end DispatchTable

end Multimethod
