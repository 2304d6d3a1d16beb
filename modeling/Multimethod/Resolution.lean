import Multimethod.Combination
import Multimethod.MethodTable

/-!
# Resolving calls

The receiver and the arguments of a call are split into their members, a class with everything
below it into the classes themselves. Every combination of members picks one target: among the
candidates that accept the number and the types of the arguments the most specific one, and of
equally specific ones the one that comes first.
-/

namespace Multimethod

/-- What one combination of types dispatches to. -/
inductive Target where
  | method (m : MethodId)
  /-- A fresh object, no instance variable set. -/
  | allocate (c : ClassId)
  /-- A fresh object, initialized with the arguments. -/
  | new (c : ClassId)
deriving DecidableEq, Repr

/-- The target of one combination of member types. -/
structure ResolutionEntry where
  receiver : Option TypeId
  args : List TypeId
  target : Target
deriving DecidableEq, Repr

/-- The targets of a call, one entry for each combination. -/
abbrev Resolution := List ResolutionEntry

namespace Resolution

/-- The methods that occur as targets, in the order of first occurrence. -/
def methods (r : Resolution) : List MethodId :=
  r.foldl (fun ms e => match e.target with
    | .method m => if ms.contains m then ms else ms ++ [m]
    | _ => ms) []

end Resolution

/-- What resolution reads and does not change. -/
structure Registry where
  names : NameTable
  core : CoreNames
  hierarchy : Hierarchy
  methods : MethodTable

namespace Registry

def typeText (g : Registry) (t : TypeTable) (a : TypeId) : String :=
  g.hierarchy.typeText t g.names a

def isSubtype (g : Registry) (t : TypeTable) (a b : TypeId) : Bool := g.hierarchy.isSubtype t a b

/-- The members of a type without those that take in classes below: their classes instead. -/
def split (g : Registry) (a : TypeId) : StateM TypeTable (List TypeId) := do
  let parts ← (((← get).members a).mapM fun m => do
    match (← get).shape m with
    | .below c => (g.hierarchy.descendants c).mapM TypeTable.exact
    | _ => pure [m])
  return Handle.sorted parts.flatten

/-- The restriction of a method's parameter for a receiver. -/
def restriction (g : Registry) (m : MethodId) (i : Nat) (receiver : Option TypeId) :
    StateM TypeTable (Option TypeId) :=
  match g.methods.get? m with
  | some m => m.restriction i receiver
  | none => pure none

def acceptsArity (g : Registry) (m : MethodId) (n : Nat) : Bool :=
  (g.methods.get? m).any (·.definition.acceptsArity n)

/-- The first argument, counted from `i` on, that its parameter's restriction rejects, and that
restriction. -/
def firstRejected (g : Registry) (m : MethodId) (receiver : Option TypeId) :
    Nat → List TypeId → StateM TypeTable (Option (Nat × TypeId))
  | _, [] => pure none
  | i, a :: as => do
    match ← g.restriction m i receiver with
    | none => g.firstRejected m receiver (i + 1) as
    | some r =>
      if g.isSubtype (← get) a r then g.firstRejected m receiver (i + 1) as
      else return some (i, r)

/-- Whether a method takes arguments of the given types. -/
def accepts (g : Registry) (m : MethodId) (receiver : Option TypeId) (args : List TypeId) :
    StateM TypeTable Bool :=
  return (← g.firstRejected m receiver 0 args).isNone

/-- Whether `a` is more specific than `b` in `n` parameters from `i` on: none of its restrictions
is wider and at least one, or `narrower`, is narrower. No restriction is the widest. -/
def moreSpecific (g : Registry) (a b : MethodId) (receiver : Option TypeId) :
    Nat → Nat → Bool → StateM TypeTable Bool
  | _, 0, narrower => pure narrower
  | i, n + 1, narrower => do
    let ra ← g.restriction a i receiver
    let rb ← g.restriction b i receiver
    match ra, rb with
    | none, none => g.moreSpecific a b receiver (i + 1) n narrower
    | some _, none => g.moreSpecific a b receiver (i + 1) n true
    | none, some _ => return false
    | some ra, some rb =>
      if g.isSubtype (← get) ra rb then
        g.moreSpecific a b receiver (i + 1) n (narrower || ra ≠ rb)
      else return false

/-- The choice among candidates of the right arity, `best` being the choice so far: a candidate
that accepts the arguments replaces it only if it is more specific. -/
def choose (g : Registry) (receiver : Option TypeId) (args : List TypeId) :
    Option MethodId → List MethodId → StateM TypeTable (Option MethodId)
  | best, [] => pure best
  | best, m :: ms => do
    if ← g.accepts m receiver args then
      match best with
      | none => g.choose receiver args (some m) ms
      | some b =>
        if ← g.moreSpecific m b receiver 0 args.length false then
          g.choose receiver args (some m) ms
        else g.choose receiver args (some b) ms
    else g.choose receiver args best ms

/-- Objects are made by calls on class objects for which no method is defined. -/
def builtin (g : Registry) (t : TypeTable) (n : Name) (receiver : Option TypeId)
    (args : List TypeId) : Option Target :=
  match receiver.map t.shape with
  | some (.classObject c) =>
    if n = g.core.new then some (.new c)
    else if n = g.core.allocate ∧ args = [] then some (.allocate c)
    else none
  | _ => none

/-- The target of one combination of members, or else the candidates of the right arity. -/
def pick (g : Registry) (n : Name) (receiver : Option TypeId) (args : List TypeId) :
    StateM TypeTable (Except (List MethodId) Target) := do
  let candidates := g.methods.candidates g.hierarchy (← get) n receiver
  let fitting := candidates.filter (g.acceptsArity · args.length)
  match ← g.choose receiver args none fitting with
  | some m => return .ok (.method m)
  | none =>
    let t ← get
    match if candidates.isEmpty then g.builtin t n receiver args else none with
    | some target => return .ok target
    | none => return .error fitting

/-- The complaint about a combination without a target. If only one candidate has the right arity,
it is about the first argument that this candidate rejects; `args` are the types of the whole
arguments. -/
def failure (g : Registry) (n : Name) (receiver : Option TypeId) (combination args : List TypeId)
    (fitting : List MethodId) : StateM TypeTable TypeError.Cause := do
  let method := g.names.text n
  let rejected ← match fitting with
    | [m] => (·.map fun r => (m, r)) <$> g.firstRejected m receiver 0 combination
    | _ => pure none
  let t ← get
  match rejected with
  | some (m, i, r) =>
    let param := (g.methods.get? m).bind (·.definition.params[i]?)
    return .restrictionViolation method ((param.map fun p => g.names.text p.name).getD "")
      (g.typeText t r) ((args[i]?.map (g.typeText t)).getD "")
  | none =>
    return .noOverload method (receiver.map (g.typeText t)) (args.map (g.typeText t))
      (g.methods.signatures g.hierarchy t g.names n receiver)

/-- The entry of one combination, or the complaint that it has no target. -/
def resolveOne (g : Registry) (n : Name) (args : List TypeId) (span : Span)
    (receiver : Option TypeId) (combination : List TypeId) :
    ExceptT TypeError (StateM TypeTable) ResolutionEntry := do
  match ← g.pick n receiver combination with
  | .ok target => return ⟨receiver, combination, target⟩
  | .error fitting => throw ⟨← g.failure n receiver combination args fitting, span⟩

/-- Resolve a call, on a receiver or to a free function. If the receiver or an argument has no
value, the call is not reached and goes nowhere. -/
def resolve (g : Registry) (n : Name) (receiver : Option TypeId) (args : List TypeId)
    (span : Span) : ExceptT TypeError (StateM TypeTable) Resolution := do
  let receivers ← match receiver with
    | some a => (·.map some) <$> g.split a
    | none => pure [none]
  let argMembers ← args.mapM fun a => (g.split a : ExceptT TypeError (StateM TypeTable) _)
  if receivers.isEmpty || argMembers.any (·.isEmpty) then return []
  Combination.rounds (g.resolveOne n args span) argMembers receivers
    (Combination.Cursor.start argMembers)

/-- Whether a call to `n` without a receiver, where `self` has type `self`, goes to `self`. -/
def goesToSelf (g : Registry) (t : TypeTable) (n : Name) (self : TypeId) : Bool :=
  (t.flags self).classObject && (n = g.core.new || n = g.core.allocate) ||
    g.methods.understands g.hierarchy t n self

/-- Resolve a call without a receiver: it goes to `self` if that can take it, and else to the free
functions. -/
def resolveSend (g : Registry) (n : Name) (self : Option TypeId) (args : List TypeId)
    (span : Span) : ExceptT TypeError (StateM TypeTable) Resolution := do
  let t ← get
  g.resolve n (self.filter (g.goesToSelf t n)) args span

end Registry

end Multimethod
