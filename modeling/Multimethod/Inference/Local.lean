import Multimethod.Inference.Basic

/-!
# Types of locals along paths

Where two paths meet, a local has the types of both; a path that yields no value does not get
there. A local that one path never assigned may be `nil`.
-/

namespace Multimethod.InferIn

open Inference

/-- Locals where two paths meet, each with whether it is dead, that is, yields no value. -/
def joinLocals (a : Locals) (aDead : Bool) (b : Locals) (bDead : Bool) : InferIn Locals :=
  match aDead, bDead with
  | false, true => pure a
  | true, false => pure b
  | _, _ =>
    let missing : TypeId := if aDead then .never else .nil
    let names := Handle.sorted (a.keys ++ b.keys)
    names.foldlM (fun m n => do
      let t ← union (a[n]?.getD missing) (b[n]?.getD missing)
      return m.insert n t) ∅

/-- Add `nil` to the type of each local that is not among the bound ones. -/
def orNilExcept (bound : Locals) : InferIn Unit := do
  let before ← locals
  let after ← before.toList.foldlM (fun (m : Locals) (n, a) => do
    if bound.contains n then return m
    else return m.insert n (← onTypes (TypeTable.orNil a))) before
  setLocals after

/-- The local that a condition tests: `x` or `x = e`. -/
def tested? : Term → Option Name
  | .var _ n | .assign _ n _ => some n
  | _ => none

/-- Type the branch that runs if `test` holds. In it a tested local is not `nil`; after it the
local has its earlier types again, and those the branch gave it, even if typing fails. -/
def narrowing (test : Term) (branch : InferIn TypeId) : InferIn TypeId :=
  match tested? test with
  | none => branch
  | some n => do
    let full := (← local? n).getD .nil
    let narrow ← onTypes (TypeTable.dropNil full)
    setLocal n narrow
    let result ← attempt branch
    let after := (← local? n).getD narrow
    setLocal n (← union full after)
    ended result

/-- Type the other branch of a condition from the locals at its entry, and join the two. -/
def joining (entry : Locals) (first : TypeId) (other : InferIn TypeId) : InferIn TypeId := do
  let firstLocals ← locals
  setLocals entry
  let second ← other
  let secondLocals ← locals
  setLocals (← joinLocals firstLocals (first = .never) secondLocals (second = .never))
  union first second

end Multimethod.InferIn
