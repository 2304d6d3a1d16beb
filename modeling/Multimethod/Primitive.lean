/-!
# Primitive operations

The operations in which the bodies of the predefined methods end. Each is wrapped in ordinary
methods, so a call to it is resolved and specialized like any other call.
-/

namespace Multimethod

inductive Primitive where
  | add | sub | mul
  | lt | le | gt | ge
  /-- Equality of numbers; an integer may equal a float. -/
  | numEq
  /-- Identity of arbitrary values. -/
  | identical
  /-- Truncation to an integer. -/
  | toInt
  /-- Conversion to a float. -/
  | toFloat
deriving DecidableEq, Repr

namespace Primitive

/-- The operations that give a number of the wider operand kind. -/
def isArithmetic : Primitive → Bool
  | add | sub | mul => true
  | _ => false

/-- The operations that give a truth value. -/
def isComparison : Primitive → Bool
  | lt | le | gt | ge | numEq | identical => true
  | _ => false

/-- How many operands the operation takes. -/
def arity : Primitive → Nat
  | toInt | toFloat => 1
  | _ => 2

/-- The name of the predefined methods that end in the operation. -/
def methodName : Primitive → String
  | add => "+"
  | sub => "-"
  | mul => "*"
  | lt => "<"
  | le => "<="
  | gt => ">"
  | ge => ">="
  | numEq | identical => "=="
  | toInt => "to_i"
  | toFloat => "to_f"

end Primitive

end Multimethod
