import Multimethod.Catalog
import Multimethod.Type.Basic

/-!
# The type table

Every type that is met is described once, in a table that only grows. Unions are flattened, freed
of the empty type, sorted and freed of repetitions before they are looked up, so two types with
the same members have the same handle.
-/

namespace Multimethod

/-- A described type. -/
structure TypeEntry where
  shape : Shape
  flags : Flags
deriving DecidableEq, Repr

/-- The types described so far. -/
structure TypeTable where
  entries : Catalog TypeEntry (·.shape.code)

namespace TypeTable

def shape (t : TypeTable) (a : TypeId) : Shape :=
  ((t.entries.get? a.index).map (·.shape)).getD .never

def flags (t : TypeTable) (a : TypeId) : Flags :=
  ((t.entries.get? a.index).map (·.flags)).getD {}

def size (t : TypeTable) : Nat := t.entries.size

/-- The flags of a shape whose members, if it is a union, are in the table. -/
def flagsOf (t : TypeTable) : Shape → Flags
  | .never => { never := true }
  | .exact c => { nilable := c = .nil }
  | .below _ => { below := true }
  | .classObject _ => { classObject := true }
  | .self => { hasSelf := true }
  | .union members =>
    members.foldl (fun f m => f.addMember (t.flags m)) { union := true }

/-- The type with a given shape, if it has been described. -/
def find? (t : TypeTable) (s : Shape) : Option TypeId := (t.entries.find? s.code).map (⟨·⟩)

/-- The type with a given shape, described now if it has not been before. -/
def intern (s : Shape) : StateM TypeTable TypeId := fun t =>
  match h : t.entries.find? s.code with
  | some i => (⟨i⟩, t)
  | none => (⟨t.size⟩, ⟨t.entries.push ⟨s, t.flagsOf s⟩ h⟩)

/-- The table of the predefined types. -/
def initial : TypeTable :=
  ([.never, .exact .object, .exact .nil, .exact .bool, .exact .int, .exact .float, .self].foldl
    (fun t s => (intern s t).2) ⟨∅⟩)

instance : Inhabited TypeTable := ⟨initial⟩

/-! ## Queries -/

def isNilable (t : TypeTable) (a : TypeId) : Bool := (t.flags a).nilable

def isUnion (t : TypeTable) (a : TypeId) : Bool := (t.flags a).union

/-- The class of the instances of exactly one class. -/
def exactClass? (t : TypeTable) (a : TypeId) : Option ClassId :=
  match t.shape a with
  | .exact c => some c
  | _ => none

def instanceClass? (t : TypeTable) (a : TypeId) : Option ClassId := (t.shape a).instanceClass?

/-- What a type is the union of: its members, or itself; nothing for the empty type. -/
def members (t : TypeTable) (a : TypeId) : List TypeId :=
  match t.shape a with
  | .never => []
  | .union members => members
  | _ => [a]

/-- The type of the instances of `c`, if it has been described. -/
def findExact (t : TypeTable) (c : ClassId) : Option TypeId := t.find? (.exact c)

/-- The type of the class object `c`, if it has been described. -/
def findClassObject (t : TypeTable) (c : ClassId) : Option TypeId := t.find? (.classObject c)

/-! ## Constructors -/

def exact (c : ClassId) : StateM TypeTable TypeId := intern (.exact c)

def below (c : ClassId) : StateM TypeTable TypeId := intern (.below c)

def classObject (c : ClassId) : StateM TypeTable TypeId := intern (.classObject c)

/-- The type with exactly the given members, which are sorted and neither unions nor empty. -/
def ofMembers : List TypeId → StateM TypeTable TypeId
  | [] => pure .never
  | [a] => pure a
  | members => intern (.union members)

/-- The union of any number of types. -/
def unionOf (as : List TypeId) : StateM TypeTable TypeId := fun t =>
  ofMembers (Handle.sorted (as.flatMap t.members)) t

/-- The union of two types. -/
def union (a b : TypeId) : StateM TypeTable TypeId :=
  if a = b ∨ b = .never then pure a
  else if a = .never then pure b
  else unionOf [a, b]

/-- A type with `nil` added. -/
def orNil (a : TypeId) : StateM TypeTable TypeId := union a .nil

/-- A type with `nil` taken away. -/
def dropNil (a : TypeId) : StateM TypeTable TypeId := fun t =>
  if t.isNilable a then unionOf ((t.members a).filter (· ≠ .nil)) t else (a, t)

/-- A type with the placeholder `self` replaced by `receiver`. -/
def forReceiver (a receiver : TypeId) : StateM TypeTable TypeId := fun t =>
  if (t.flags a).hasSelf then
    unionOf ((t.members a).map fun m => if m = .self then receiver else m) t
  else (a, t)

end TypeTable

end Multimethod
