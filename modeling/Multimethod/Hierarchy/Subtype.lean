import Multimethod.Hierarchy.Basic

/-!
# Subtypes

A type is below another if each of its members is below some member of the other. Members compare
as their classes do; a class object is also an instance of the root class.
-/

namespace Multimethod.Hierarchy

/-- Whether everything of one shape, no union, is of another. -/
def shapeBelow (h : Hierarchy) : Shape → Shape → Bool
  | .exact a, .exact b | .exact a, .below b | .below a, .exact b | .below a, .below b
  | .classObject a, .classObject b => h.isBelow a b
  | .classObject _, .exact b | .classObject _, .below b => b = .object
  | _, _ => false

/-- Whether one member type is below another. -/
def memberBelow (h : Hierarchy) (t : TypeTable) (m n : TypeId) : Bool :=
  m = n || h.shapeBelow (t.shape m) (t.shape n)

/-- Whether `a` is a subtype of `b`. -/
def isSubtype (h : Hierarchy) (t : TypeTable) (a b : TypeId) : Bool :=
  (t.members a).all fun m => (t.members b).any fun n => h.memberBelow t m n

/-- The text of a type. -/
def typeText (h : Hierarchy) (t : TypeTable) (names : NameTable) (a : TypeId) : String :=
  t.text (fun c => names.text (h.name c)) a

end Multimethod.Hierarchy
