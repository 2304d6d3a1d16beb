import Multimethod.Decimal.Shortest
import Multimethod.Value

/-!
# Debugging output

How values, and the handles of names, expressions, classes and types are shown for debugging.
-/

namespace Multimethod

open Decimal

/-- A finite float from `0.0001` up to `10 ^ 16` is written with a point, any other with an
exponent. -/
def floatText (x : Float) : String :=
  let bits := x.toBits.toNat
  let sign := if Nat.pow 2 63 ≤ bits then "-" else ""
  let magnitude := bits % Nat.pow 2 63
  if 2047 * Nat.pow 2 52 < magnitude then "NaN"
  else if magnitude = 2047 * Nat.pow 2 52 then sign ++ "inf"
  else if magnitude = 0 then sign ++ "0.0"
  else sign ++ decimalText (Rounding.ofBits magnitude).shortest
where
  decimalText (d : Decimal) : String :=
    let digits := Nat.toDigits 10 d.coefficient
    let point := digits.length + d.exponent
    let digits := (digits.reverse.dropWhile (· = '0')).reverse
    if point < -3 ∨ 16 < point then
      let fraction := if digits.length = 1 then [] else '.' :: digits.drop 1
      String.ofList (digits.take 1 ++ fraction) ++ "e" ++ toString (point - 1)
    else if point ≤ 0 then
      "0." ++ String.ofList (List.replicate (-point).toNat '0' ++ digits)
    else
      let whole := digits.take point.toNat
      let zeros := List.replicate (point.toNat - digits.length) '0'
      let fraction := if digits.length ≤ point.toNat then ['0'] else digits.drop point.toNat
      String.ofList (whole ++ zeros ++ '.' :: fraction)

def Name.debugText (n : Name) : String := "Name(" ++ toString n.index ++ ")"

def ExprId.debugText (e : ExprId) : String := "ExprId(" ++ toString e.index ++ ")"

def ClassId.debugText (c : ClassId) : String := "ClassId(" ++ toString c.index ++ ")"

/-- The predefined types by name, any other by its position. -/
def TypeId.debugText (a : TypeId) : String :=
  if a = .never then "Idx::NEVER"
  else if a = .object then "Idx::OBJECT"
  else if a = .nil then "Idx::NIL"
  else if a = .bool then "Idx::BOOL"
  else if a = .int then "Idx::INT"
  else if a = .float then "Idx::FLOAT"
  else if a = .self then "Idx::SELF"
  else "Idx(" ++ toString a.index ++ ")"

/-- A value; of an object, its class and how many instance variables are set. -/
def Value.debugText (h : Heap) : Value → String
  | .nil => "Nil"
  | .bool b => if b then "Bool(true)" else "Bool(false)"
  | .int n => "Int(" ++ toString n.toInt ++ ")"
  | .float x => "Float(" ++ floatText x ++ ")"
  | .object o c => "Object(Object \x7b class: " ++ c.debugText ++ ", ivars: " ++
      toString (h.ivars o).size ++ " \x7d)"
  | .cls c => "Class(" ++ c.debugText ++ ")"

end Multimethod
