import Multimethod.Hierarchy.Basic

/-!
# Declaring classes

A list of declarations is taken in three steps: every new name becomes a class, then superclass
clauses are followed in order, then each new class that is still unplaced goes below the root. So
a superclass may be declared after its subclass, and a clause that fails leaves its class where a
declaration without a clause would have put it.
-/

namespace Multimethod.Hierarchy

/-- Make a class of every name that is not one yet. -/
def addNames (h : Hierarchy) (decls : List ClassDecl) : StateM TypeTable Hierarchy :=
  decls.foldlM (fun h d => h.add d.name d.span) h

/-- Follow the superclass clause of a declaration. Only a class that is new, that is not among the
first `old` ones, and that no clause has placed yet can be placed; for any other the clause must
repeat what is known. -/
def followClause (old : Nat) (names : NameTable) (h : Hierarchy) (d : ClassDecl)
    (superName : Name) : Except TypeError Hierarchy :=
  match h.find? d.name, h.find? superName with
  | some c, some parent =>
    match decide (old ≤ c.index), h.superclass c with
    | true, none =>
      if h.isBelow parent c then
        .error ⟨.cyclicInheritance (names.text d.name) (names.text superName), d.span⟩
      else .ok (h.place c parent)
    | _, previous =>
      if previous = some parent then .ok h
      else
        let previous := (previous.map fun p => names.text (h.name p)).getD "<none>"
        .error ⟨.superclassMismatch (names.text d.name) previous (names.text superName), d.span⟩
  | _, _ => .error ⟨.unknownType (names.text superName), d.span⟩

/-- Follow the superclass clauses of some declarations, leaving out those that fail. -/
def followClauses (old : Nat) (names : NameTable) :
    Hierarchy → List ClassDecl → List TypeError × Hierarchy
  | h, [] => ([], h)
  | h, d :: ds =>
    match d.superclass with
    | none => followClauses old names h ds
    | some superName =>
      match followClause old names h d superName with
      | .ok h => followClauses old names h ds
      | .error e =>
        let (es, h) := followClauses old names h ds
        (e :: es, h)

/-- Put every class from the handle `old` on that is still unplaced below the root. -/
def placeRest (old : Nat) (h : Hierarchy) : Hierarchy :=
  (h.ids.filter fun c => old ≤ c.index && (h.superclass c).isNone).foldl
    (fun h c => h.place c .object) h

/-- Declare classes. A declaration whose clause fails is reported. -/
def declare (h : Hierarchy) (names : NameTable) (decls : List ClassDecl) :
    StateM TypeTable (List TypeError × Hierarchy) := do
  let (errors, linked) := followClauses h.size names (← h.addNames decls) decls
  return (errors, placeRest h.size linked)

end Multimethod.Hierarchy
