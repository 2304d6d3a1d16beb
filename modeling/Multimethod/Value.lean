import Multimethod.Handle
import Multimethod.Type.Table

/-!
# Runtime values

Objects are shared by reference, everything else is copied. An object carries its class, which
never changes; its instance variables are in the heap.
-/

namespace Multimethod

inductive Value where
  | nil
  | bool (b : Bool)
  | int (n : Int64)
  | float (x : Float)
  | object (o : ObjectId) (c : ClassId)
  /-- A class used as a value. -/
  | cls (c : ClassId)

namespace Value

instance : Inhabited Value := ⟨.nil⟩

/-- Only `nil` and `false` do not count as true. -/
def truthy : Value → Bool
  | nil | bool false => false
  | _ => true

/-- The exact type of a value, by which calls are dispatched, if it has been described. -/
def type? (t : TypeTable) : Value → Option TypeId
  | nil => some .nil
  | bool _ => some .bool
  | int _ => some .int
  | float _ => some .float
  | object _ c => t.findExact c
  | cls c => t.findClassObject c

/-- Identity: objects are compared by reference, everything else by what it is; floats compare as
numbers. -/
def identical : Value → Value → Bool
  | nil, nil => true
  | bool a, bool b => a = b
  | int a, int b => a = b
  | float x, float y => x == y
  | object o _, object p _ => o = p
  | cls c, cls d => c = d
  | _, _ => false

/-- The kind of a value, as complaints of primitive operations name it. -/
def kindText : Value → String
  | nil => "Nil"
  | bool _ => "Bool"
  | int _ => "Int"
  | float _ => "Float"
  | object .. => "Object"
  | cls _ => "Class"

end Value

/-- The instance variables of all objects. -/
structure Heap where
  objects : Array (Map .name Value) := #[]

namespace Heap

/-- A fresh object without any instance variable set. -/
def allocate (h : Heap) (c : ClassId) : Value × Heap :=
  (.object ⟨h.objects.size⟩ c, ⟨h.objects.push ∅⟩)

def ivars (h : Heap) (o : ObjectId) : Map .name Value := h.objects.getD o.index ∅

/-- An instance variable of an object; one that is not set reads as `nil`. -/
def get (h : Heap) (o : ObjectId) (n : Name) : Value := (h.ivars o)[n]?.getD .nil

def set (h : Heap) (o : ObjectId) (n : Name) (v : Value) : Heap :=
  ⟨h.objects.modify o.index (·.insert n v)⟩

end Heap

end Multimethod
