import Multimethod.Machine.Basic

/-!
# Running calls

A call looks up its target in the dispatch table of its site, by the exact types of receiver and
arguments. A call without a receiver tries the type of `self` first. What is called runs in an
activation of its own.
-/

namespace Multimethod.Machine

variable (p : Program)

/-- What the running body was found to do. -/
def bodyOf (unit : Option SpecId) : Body :=
  match unit with
  | none => p.mainBody
  | some s => ((p.specs.get? s).map (·.body)).getD {}

/-- The exact types of some values; nothing if one of them has none. -/
def exactTypes (vs : List Value) : Option (List TypeId) := vs.mapM (·.type? p.types)

/-- The target of a call and the `self` of what is called. -/
def lookUp (a : Activation) (id : ExprId) (receiver : Option Value) (args : List Value) :
    Option (Callee × Option Value) := do
  let table ← (bodyOf p a.unit).dispatch[id]?
  let types ← exactTypes p args
  match receiver with
  | some v =>
    let type ← v.type? p.types
    let target ← table.find? (some type) types
    return (target, some v)
  | none =>
    let own := a.receiver.getD mainObject
    match (own.type? p.types).bind fun type => table.find? (some type) types with
    | some target => return (target, some own)
    | none => return (← table.find? none types, none)

/-- How a complaint names the type of a value. -/
def describe (v : Value) : String :=
  match v with
  | .object _ c => p.names.text (p.hierarchy.name c)
  | .cls c => p.names.text (p.hierarchy.name c) ++ ".class"
  | _ => ((v.type? p.types).map p.typeText).getD ""

/-- Run a specialization. Its value, or `object` if there is one, becomes that of the call. -/
def invoke (limit : Nat) (c : Config) (site : Site) (s : SpecId) (receiver : Option Value)
    (args : List Value) (object : Option Value) : Config :=
  if limit ≤ c.depth then c.fail (.stackOverflow limit) site.span
  else
    match (p.specs.get? s).bind fun i => p.methods.get? i.key.method with
    | none => c.run (.value site.id .nil)
    | some m =>
      { c with
        control := .bind m.definition.params args (Arena.termAt p.terms m.definition.body)
        activation := { unit := some s, receiver }
        callers := ⟨c.activation, site.id, object⟩ :: c.callers
        depth := c.depth + 1 }

/-- Make a call. -/
def call (limit : Nat) (c : Config) (site : Site) (receiver : Option Value) (method : Name)
    (args : List Value) : Config :=
  match lookUp p c.activation site.id receiver args with
  | none =>
    c.fail (.noDispatch (p.names.text method) ((receiver.toList ++ args).map (describe p)))
      site.span
  | some (.specialization s, self) => invoke p limit c site s self args none
  | some (.allocate cls, _) | some (.new cls none, _) =>
    let (object, heap) := c.heap.allocate cls
    { c with heap }.run (.value site.id object)
  | some (.new cls (some s), _) =>
    let (object, heap) := c.heap.allocate cls
    invoke p limit { c with heap } site s (some object) args (some object)

/-- Leave the running body with a value. -/
def leave (c : Config) (v : Value) : Config :=
  match c.callers with
  | [] => c.run (.done (.ok v))
  | caller :: callers =>
    { c with
      control := .value caller.call (caller.object.getD v)
      activation := caller.activation
      callers
      depth := c.depth - 1 }

/-- Leave the running body because of an error. -/
def abandon (c : Config) (e : RunError) : Config :=
  match c.callers with
  | [] => c.run (.done (.error e))
  | caller :: callers =>
    { c with
      control := .raise e
      activation := caller.activation
      callers
      depth := c.depth - 1 }

end Multimethod.Machine
