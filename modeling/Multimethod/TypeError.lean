import Multimethod.Diagnostic

/-!
# Errors of checking

What checking reports, as causes. Types and signatures appear as text, so an error stands without
the tables it came from. `TypeError.diagnostic` says how each cause is shown.
-/

namespace Multimethod

/-- Why checking rejects something. -/
inductive TypeError.Cause where
  /-- A restriction, owner, superclass or constant names a class that does not exist. -/
  | unknownType (name : String)
  /-- An earlier definition has the same owner, name and restrictions. -/
  | duplicateDefinition (signature : String) (previous : Span)
  /-- No method takes some combination of a call's types. -/
  | noOverload (method : String) (receiver : Option String) (argTypes signatures : List String)
  /-- The only method of the right arity rejects an argument. -/
  | restrictionViolation (method param expected found : String)
  /-- A parameter without a default follows one with a default. -/
  | requiredAfterDefault (method param : String)
  /-- A type was still growing when a limit was reached. -/
  | divergence (name : String) (rounds : Nat)
  /-- A class is opened again with another superclass. -/
  | superclassMismatch (cls previous found : String)
  /-- A superclass clause would close a cycle. -/
  | cyclicInheritance (cls superclass : String)
deriving DecidableEq, Repr

/-- A cause and the place it concerns. -/
structure TypeError where
  cause : TypeError.Cause
  span : Span
deriving DecidableEq, Repr

namespace TypeError

namespace Cause

/-- A call without any candidate reads as an undefined method. -/
def noOverloadMessage (method : String) (receiver : Option String)
    (argTypes signatures : List String) : String :=
  match signatures, receiver with
  | [], some r => s!"undefined method `{method}` for {r}"
  | [], none => s!"undefined method `{method}`"
  | _ :: _, some r =>
    s!"no overload matches `{r}#{method}` with types (" ++ ", ".intercalate argTypes ++ ")"
  | _ :: _, none =>
    s!"no overload matches `{method}` with types (" ++ ", ".intercalate argTypes ++ ")"

def message : Cause → String
  | unknownType name => s!"undefined type `{name}`"
  | duplicateDefinition signature _ => s!"method `{signature}` is already defined"
  | noOverload method receiver argTypes signatures =>
    noOverloadMessage method receiver argTypes signatures
  | restrictionViolation method param expected found =>
    s!"argument `{param}` of `{method}` must be `{expected}`, not `{found}`"
  | requiredAfterDefault method param =>
    s!"parameter `{param}` of `{method}` needs a default, it follows a defaulted parameter"
  | divergence name rounds => s!"type of `{name}` did not stabilize after {rounds} rounds"
  | superclassMismatch cls previous found =>
    s!"superclass mismatch for class `{cls}` (`{found}` vs `{previous}`)"
  | cyclicInheritance cls superclass =>
    s!"class `{cls}` cannot inherit from its own subclass `{superclass}`"

def code : Cause → ErrorCode
  | restrictionViolation .. => .E2001
  | unknownType .. => .E2002
  | noOverload .. => .E2003
  | divergence .. => .E2005
  | duplicateDefinition .. => .E2006
  | requiredAfterDefault .. => .E2007
  | superclassMismatch .. | cyclicInheritance .. => .E2008

end Cause

def code (e : TypeError) : ErrorCode := e.cause.code

def message (e : TypeError) : String := e.cause.message

/-- How the error is shown. -/
def diagnostic (e : TypeError) : Diagnostic :=
  let d := (Diagnostic.error e.code).say e.message
  match e.cause with
  | .noOverload _ _ _ signatures =>
    signatures.foldl (fun d signature => d.addNote s!"overload is `{signature}`")
      (d.pointAt e.span "no matching overload")
  | .duplicateDefinition _ previous =>
    (d.pointAt e.span "redefined here").mention previous "first defined here"
  | .restrictionViolation _ _ expected _ => d.pointAt e.span s!"expected `{expected}`"
  | .divergence .. =>
    (d.pointAt e.span "while inferring this").addNote
      "raise the widening limit in `InferConfig` if this is intended"
  | .requiredAfterDefault .. => d.pointAt e.span "required parameter after a default"
  | .unknownType .. | .superclassMismatch .. | .cyclicInheritance .. => d.pointAt e.span ""

end TypeError

end Multimethod
