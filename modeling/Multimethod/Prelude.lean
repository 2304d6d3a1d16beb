import Multimethod.Builder

/-!
# Predefined methods

Arithmetic, comparison and conversion of numbers, `nil?` and `==` are ordinary definitions whose
bodies are primitive operations. The classes they belong to are part of every hierarchy.
-/

namespace Multimethod.Prelude

/-- The classes of numbers. -/
def numeric : List String := ["Int", "Float"]

/-- The operations with one method for each pair of number classes. -/
def operators : List Primitive := [.add, .sub, .mul, .lt, .le, .gt, .ge, .numEq]

/-- `receiver#op(other : operand)` -/
def operator (receiver operand : String) (op : Primitive) : Build Unit := do
  let this ← Build.self
  let other ← Build.var "other"
  let body ← Build.primitive op [this, other]
  let operand ← Build.name operand
  let param ← Build.param "other" (some (.named operand)) none
  Build.method receiver op.methodName [param] body

/-- `receiver#name` without parameters, its body the result of applying `op` to `self`. -/
def conversion (receiver name : String) (op : Option Primitive) : Build Unit := do
  let this ← Build.self
  let body ← match op with
    | some op => Build.primitive op [this]
    | none => pure this
  Build.method receiver name [] body

/-- Add the predefined methods. -/
def install : Build Unit := do
  for receiver in numeric do
    for operand in numeric do
      for op in operators do
        operator receiver operand op
  conversion "Int" "to_i" none
  conversion "Int" "to_f" (some .toFloat)
  conversion "Float" "to_i" (some .toInt)
  conversion "Float" "to_f" none
  Build.method "Object" "nil?" [] (← Build.bool false)
  Build.method "Nil" "nil?" [] (← Build.bool true)
  let this ← Build.self
  let other ← Build.var "other"
  let body ← Build.primitive .identical [this, other]
  let param ← Build.param "other" none none
  Build.method "Object" "==" [param] body

/-- A source under construction that has the predefined methods and nothing else. -/
def builder (names : NameTable) : Builder := (install { names }).2

end Multimethod.Prelude
