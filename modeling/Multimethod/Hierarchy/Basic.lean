import Multimethod.Catalog
import Multimethod.Handle
import Multimethod.Name
import Multimethod.Source
import Multimethod.Type.Text
import Multimethod.TypeError

/-!
# The class hierarchy

Classes form a tree whose root is the first class of the table. A class knows its superclass, the
classes directly below it in the order in which they were put there, and the types that its
instance variables have been seen to hold.
-/

namespace Multimethod

structure ClassInfo where
  name : Name
  /-- Missing only for the root. -/
  superclass : Option ClassId
  span : Span
  /-- The classes directly below, in the order in which they were put there. -/
  children : List ClassId
  /-- What has been assigned to each instance variable. -/
  ivars : Map .name TypeId

/-- The classes, told apart by their names. -/
structure Hierarchy where
  classes : Catalog ClassInfo fun i => [i.name.index]

namespace Hierarchy

def size (h : Hierarchy) : Nat := h.classes.size

def isEmpty (h : Hierarchy) : Bool := h.size = 0

/-- Every class, in the order of their handles. -/
def ids (h : Hierarchy) : List ClassId := (List.range h.size).map (⟨·⟩)

def get? (h : Hierarchy) (c : ClassId) : Option ClassInfo := h.classes.get? c.index

/-- The class with a given name. -/
def find? (h : Hierarchy) (n : Name) : Option ClassId := (h.classes.find? [n.index]).map (⟨·⟩)

def name (h : Hierarchy) (c : ClassId) : Name := ((h.get? c).map (·.name)).getD .empty

def superclass (h : Hierarchy) (c : ClassId) : Option ClassId := (h.get? c).bind (·.superclass)

def children (h : Hierarchy) (c : ClassId) : List ClassId :=
  ((h.get? c).map (·.children)).getD []

/-- Change what is known of a class, but not its name. -/
def modify (h : Hierarchy) (c : ClassId) (f : ClassInfo → ClassInfo)
    (hf : ∀ i, (f i).name = i.name := by intro _; rfl) : Hierarchy :=
  ⟨h.classes.modify c.index f fun i => by rw [hf]⟩

/-- The class with a given name, or the complaint that there is none. -/
def requireClass (h : Hierarchy) (names : NameTable) (n : Name) (span : Span) :
    Except TypeError ClassId :=
  match h.find? n with
  | some c => .ok c
  | none => .error ⟨.unknownType (names.text n), span⟩

/-! ## Up and down the tree -/

/-- At most `n` classes of the chain that starts at `c` and goes up. -/
def chain (h : Hierarchy) : Nat → ClassId → List ClassId
  | 0, _ => []
  | n + 1, c =>
    c :: match h.superclass c with
      | some p => h.chain n p
      | none => []

/-- A class and its superclasses, up to the root. No chain is longer than there are classes. -/
def ancestors (h : Hierarchy) (c : ClassId) : List ClassId := h.chain h.size c

/-- Whether `d` is among the first `n` classes of the chain that starts at `c` and goes up. -/
def reaches (h : Hierarchy) (d : ClassId) : Nat → ClassId → Bool
  | 0, _ => false
  | n + 1, c =>
    c = d || match h.superclass c with
      | some p => h.reaches d n p
      | none => false

/-- Whether `c` is `d` or below it. -/
def isBelow (h : Hierarchy) (c d : ClassId) : Bool := h.reaches d h.size c

theorem reaches_iff {h : Hierarchy} {d : ClassId} {n : Nat} {c : ClassId} :
    h.reaches d n c ↔ d ∈ h.chain n c := by
  induction n generalizing c with
  | zero => simp [reaches, chain]
  | succ n ih =>
    rw [reaches, chain, Bool.or_eq_true, List.mem_cons, decide_eq_true_iff, eq_comm]
    cases h.superclass c <;> simp [ih]

theorem isBelow_iff {h : Hierarchy} {c d : ClassId} : h.isBelow c d ↔ d ∈ h.ancestors c :=
  reaches_iff

/-- The classes at most `n - 1` levels below `c`, each before those below it. -/
def subtree (h : Hierarchy) : Nat → ClassId → List ClassId
  | 0, _ => []
  | n + 1, c => c :: (h.children c).flatMap (h.subtree n)

/-- A class and everything below it, each class before those below it. -/
def descendants (h : Hierarchy) (c : ClassId) : List ClassId := h.subtree h.size c

/-! ## Growth -/

/-- Add a class that is not yet placed in the tree, and describe its types, unless there is one
with its name. -/
def add (h : Hierarchy) (name : Name) (span : Span) : StateM TypeTable Hierarchy := do
  match hn : h.classes.find? [name.index] with
  | some _ => return h
  | none =>
    let c : ClassId := ⟨h.size⟩
    let _ ← TypeTable.exact c
    let _ ← TypeTable.classObject c
    return ⟨h.classes.push ⟨name, none, span, [], ∅⟩ hn⟩

/-- Put `c` below `parent`. -/
def place (h : Hierarchy) (c parent : ClassId) : Hierarchy :=
  (h.modify c fun i => { i with superclass := some parent }).modify parent fun i =>
    { i with children := i.children ++ [c] }

/-- The hierarchy of the predefined classes. -/
def initial (core : CoreNames) : StateM TypeTable Hierarchy := do
  let h ← (⟨∅⟩ : Hierarchy).add core.object .dummy
  [core.nil, core.bool, core.int, core.float].foldlM (fun h n => do
    let c : ClassId := ⟨h.size⟩
    return (← h.add n .dummy).place c .object) h

end Hierarchy

end Multimethod
