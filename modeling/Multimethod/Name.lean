import Multimethod.Handle

/-!
# Interned names

A name table gives every distinct text one name, in the order in which texts are first met. The
empty text is there from the start.
-/

namespace Multimethod

/-- The name of the empty text. -/
def Name.empty : Name := ⟨0⟩

/-- The texts that have been given a name, in order of first use. -/
structure NameTable where
  texts : Array String := #[""]

namespace NameTable

instance : Inhabited NameTable := ⟨{}⟩

/-- How many names have been handed out. -/
def size (t : NameTable) : Nat := t.texts.size

/-- The name of a text that already has one. -/
def find? (t : NameTable) (s : String) : Option Name := (t.texts.idxOf? s).map (⟨·⟩)

/-- The name of a text, a new one if the text has none yet. -/
def intern (s : String) : StateM NameTable Name := fun t =>
  match t.find? s with
  | some n => (n, t)
  | none => (⟨t.size⟩, { texts := t.texts.push s })

/-- The text of a name; a name of another table reads as the empty text. -/
def text (t : NameTable) (n : Name) : String := t.texts.getD n.index ""

end NameTable

/-- The names of the methods and classes that the language itself refers to. -/
structure CoreNames where
  new : Name
  allocate : Name
  initializer : Name
  object : Name
  nil : Name
  bool : Name
  int : Name
  float : Name

namespace CoreNames

def intern : StateM NameTable CoreNames := do
  let new ← NameTable.intern "new"
  let allocate ← NameTable.intern "allocate"
  let initializer ← NameTable.intern "initialize"
  let object ← NameTable.intern "Object"
  let nil ← NameTable.intern "Nil"
  let bool ← NameTable.intern "Bool"
  let int ← NameTable.intern "Int"
  let float ← NameTable.intern "Float"
  return { new, allocate, initializer, object, nil, bool, int, float }

end CoreNames

end Multimethod
