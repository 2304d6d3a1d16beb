import Multimethod.Handle

/-!
# Types

A type is described by its shape: the empty type, the instances of one class, the instances of a
class and everything below it, a class object, the placeholder `self`, or a union of such types.
The predefined classes and types have fixed handles.
-/

namespace Multimethod

namespace ClassId

def object : ClassId := ⟨0⟩
def nil : ClassId := ⟨1⟩
def bool : ClassId := ⟨2⟩
def int : ClassId := ⟨3⟩
def float : ClassId := ⟨4⟩

end ClassId

namespace TypeId

/-- The type of what yields no value: unreachable, or not yet known to yield one. -/
def never : TypeId := ⟨0⟩

/-- The instances of the root class itself. -/
def object : TypeId := ⟨1⟩

def nil : TypeId := ⟨2⟩
def bool : TypeId := ⟨3⟩
def int : TypeId := ⟨4⟩
def float : TypeId := ⟨5⟩

/-- The placeholder for the type of the receiver. -/
def self : TypeId := ⟨6⟩

end TypeId

/-- What a type consists of. -/
inductive Shape where
  | never
  /-- The instances of one class. -/
  | exact (c : ClassId)
  /-- The instances of a class and of every class below it. -/
  | below (c : ClassId)
  /-- The class itself, as an object. -/
  | classObject (c : ClassId)
  /-- The placeholder for the receiver's type. -/
  | self
  /-- Two or more types that are neither unions nor empty, in increasing order. -/
  | union (members : List TypeId)
deriving DecidableEq, Repr, Inhabited

namespace Shape

/-- What tells a shape from all others. -/
def code : Shape → List Nat
  | never => [0]
  | exact c => [1, c.index]
  | below c => [2, c.index]
  | classObject c => [3, c.index]
  | self => [4]
  | union members => 5 :: members.map Handle.index

theorem code_inj {s t : Shape} : s.code = t.code ↔ s = t := by
  refine ⟨fun h => ?_, congrArg code⟩
  cases s <;> cases t <;> simp_all [code]

/-- The class of an instance type, whether or not it takes in the classes below. -/
def instanceClass? : Shape → Option ClassId
  | exact c | below c => some c
  | _ => none

end Shape

/-- What is remembered of a type when it is first described. -/
structure Flags where
  never : Bool := false
  union : Bool := false
  /-- `nil` is among the members. -/
  nilable : Bool := false
  /-- A type that takes in the classes below one is among the members. -/
  below : Bool := false
  /-- A class object is among the members. -/
  classObject : Bool := false
  /-- The placeholder `self` is among the members. -/
  hasSelf : Bool := false
deriving DecidableEq, Repr

namespace Flags

/-- Take over from a member what a union has if one of its members has it. -/
def addMember (f g : Flags) : Flags where
  never := f.never
  union := f.union
  nilable := f.nilable || g.nilable
  below := f.below || g.below
  classObject := f.classObject || g.classObject
  hasSelf := f.hasSelf || g.hasSelf

/-- The flags as a number, one bit each. -/
def bits (f : Flags) : Nat :=
  f.never.toNat + 2 * f.union.toNat + 4 * f.nilable.toNat + 8 * f.below.toNat +
    16 * f.classObject.toNat + 32 * f.hasSelf.toNat

end Flags

end Multimethod
