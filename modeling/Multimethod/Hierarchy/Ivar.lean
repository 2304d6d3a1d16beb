import Multimethod.Hierarchy.Basic

/-!
# Types of instance variables

What has been assigned to an instance variable is collected per class; `nil`, which an unassigned
variable holds, is not counted in.
-/

namespace Multimethod.Hierarchy

/-- The instance variables of a class and their types, in the order of the names' handles. -/
def ivars (h : Hierarchy) (c : ClassId) : Map .name TypeId :=
  ((h.get? c).map (·.ivars)).getD ∅

/-- What has been assigned to an instance variable, if anything has. -/
def ivarType (h : Hierarchy) (c : ClassId) (n : Name) : Option TypeId := (h.ivars c)[n]?

/-- Add a type to those of an instance variable, and tell whether that changed it. -/
def assignIvar (h : Hierarchy) (c : ClassId) (n : Name) (a : TypeId) :
    StateM TypeTable (Bool × Hierarchy) := do
  let old := (h.ivarType c n).getD .never
  let new ← TypeTable.union old a
  if new = old then return (false, h)
  else return (true, h.modify c fun i => { i with ivars := i.ivars.insert n new })

end Multimethod.Hierarchy
