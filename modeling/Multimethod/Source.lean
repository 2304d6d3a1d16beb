import Multimethod.Expr.Arena

/-!
# Sources

A source is what is checked and run as one: class declarations, definitions and top-level
statements.
-/

namespace Multimethod

/-- A type restriction as written. -/
inductive Restriction where
  | named (name : Name)
  | nilable (inner : Restriction)
  | union (parts : List Restriction)
  /-- The type of the receiver. -/
  | self
deriving Inhabited

/-- A class declaration. Declaring a class again reopens it. -/
structure ClassDecl where
  name : Name
  superclass : Option Name
  span : Span
deriving DecidableEq

/-- What a definition is declared on. -/
inductive Owner where
  /-- The instances of a class. -/
  | instances (cls : Name)
  /-- The class itself, as an object. -/
  | classObject (cls : Name)
deriving DecidableEq

structure Param where
  name : Name
  restriction : Option Restriction
  /-- Evaluated in the callee's scope when the argument is left out. -/
  default : Option ExprId
  span : Span

/-- A named body with its parameters; without an owner it is a free function. -/
structure Definition where
  name : Name
  owner : Option Owner
  params : List Param
  body : ExprId
  span : Span

namespace Definition

/-- How many leading parameters have no default. -/
def required (d : Definition) : Nat := (d.params.takeWhile (·.default.isNone)).length

/-- Whether a call may pass `n` arguments. -/
def acceptsArity (d : Definition) (n : Nat) : Bool := d.required ≤ n && n ≤ d.params.length

end Definition

structure Source where
  classes : List ClassDecl := []
  definitions : List Definition := []
  /-- The top-level statements, in order. -/
  main : List ExprId := []
  arena : Arena := {}

end Multimethod
