import Multimethod.Diagnostic
import Multimethod.Primitive
import Multimethod.Value

/-!
# Errors of running

What can go wrong while a program runs, as causes. `RunError.diagnostic` says how each is shown.
-/

namespace Multimethod

/-- Why a run stops. -/
inductive RunError.Cause where
  /-- A call has no dispatch row for the types at hand. -/
  | noDispatch (method : String) (types : List String)
  /-- Calls are nested more deeply than allowed. -/
  | stackOverflow (depth : Nat)
  /-- A constant names no class. -/
  | unbound (name : String)
  /-- The result of an integer operation does not fit. -/
  | integerOverflow (op : String)
deriving DecidableEq, Repr

/-- A cause and the place it concerns. -/
structure RunError where
  cause : RunError.Cause
  span : Span
deriving DecidableEq, Repr

namespace RunError

namespace Cause

def message : Cause → String
  | noDispatch method types =>
    s!"no dispatch entry for `{method}` with types (" ++ ", ".intercalate types ++ ")"
  | stackOverflow depth => s!"call depth limit of {depth} exceeded"
  | unbound name => s!"undefined constant `{name}`"
  | integerOverflow op => s!"integer overflow in `{op}`"

def code : Cause → ErrorCode
  | noDispatch .. => .E6001
  | stackOverflow _ => .E6002
  | unbound _ => .E6003
  | integerOverflow _ => .E6004

end Cause

def code (e : RunError) : ErrorCode := e.cause.code

def message (e : RunError) : String := e.cause.message

/-- How the error is shown. -/
def diagnostic (e : RunError) : Diagnostic :=
  let d := ((Diagnostic.error e.code).say e.message).pointAt e.span
    "evaluation failed here"
  match e.cause with
  | .stackOverflow _ => d.addNote "raise `EvalConfig::max_call_depth` for deeper recursion"
  | _ => d

end RunError

namespace Primitive

/-- A number, of either kind. -/
inductive Number where
  | int (n : Int64)
  | float (x : Float)

namespace Number

def ofValue? : Value → Option Number
  | .int n => some (.int n)
  | .float x => some (.float x)
  | _ => none

def toFloat : Number → Float
  | int n => n.toFloat
  | float x => x

end Number

/-- The integer `n`, if it fits. -/
def checked (op : Primitive) (n : Int) : Except RunError.Cause Value :=
  if Int64.minValue.toInt ≤ n ∧ n ≤ Int64.maxValue.toInt then .ok (.int (Int64.ofInt n))
  else .error (.integerOverflow op.methodName)

/-- Arithmetic on integers is exact and has to fit; if one operand is a float, both are taken as
floats. -/
def arithmetic (op : Primitive) : Number → Number → Except RunError.Cause Value
  | .int a, .int b =>
    checked op <| match op with
      | .add => a.toInt + b.toInt
      | .sub => a.toInt - b.toInt
      | _ => a.toInt * b.toInt
  | a, b =>
    let x := a.toFloat
    let y := b.toFloat
    .ok <| .float <| match op with
      | .add => x + y
      | .sub => x - y
      | _ => x * y

/-- Comparison; if one operand is a float, both are taken as floats. -/
def compare (op : Primitive) : Number → Number → Bool
  | .int a, .int b =>
    match op with
    | .lt => a < b
    | .le => a ≤ b
    | .gt => b < a
    | .ge => b ≤ a
    | _ => a = b
  | a, b =>
    let x := a.toFloat
    let y := b.toFloat
    match op with
    | .lt => x < y
    | .le => x ≤ y
    | .gt => y < x
    | .ge => y ≤ x
    | _ => x == y

/-- Conversion to an integer cuts off the fraction, stops at the ends of the range and takes what
is not a number as zero. -/
def convert : Primitive → Number → Value
  | .toInt, .int n => .int n
  | .toInt, .float x => .int x.toInt64
  | _, n => .float n.toFloat

/-- The complaint that an operation is not defined for its operands. -/
def invalid (op : Primitive) (operands : List Value) : RunError.Cause :=
  .noDispatch op.methodName (operands.map Value.kindText)

/-- Apply an operation. Identity takes any two values, all others take numbers. -/
def apply (op : Primitive) (operands : List Value) : Except RunError.Cause Value :=
  match op, operands with
  | .identical, [a, b] => .ok (.bool (a.identical b))
  | .toInt, [a] | .toFloat, [a] =>
    match Number.ofValue? a with
    | some n => .ok (op.convert n)
    | none => .error (op.invalid operands)
  | _, [a, b] =>
    match Number.ofValue? a, Number.ofValue? b with
    | some m, some n =>
      if op.isArithmetic then op.arithmetic m n else .ok (.bool (op.compare m n))
    | _, _ => .error (op.invalid operands)
  | _, _ => .error (op.invalid operands)

end Primitive

end Multimethod
