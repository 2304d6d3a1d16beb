import Multimethod.Hierarchy.Restriction
import Multimethod.Hierarchy.Subtype

/-!
# The method table

The definitions of a program with their owners and restrictions resolved. Methods of one name and
owner form an overload set, in which no two have the same restrictions. A call on a receiver looks
through the overload sets of its class and of the classes above it, in this order.
-/

namespace Multimethod

/-- What a method is defined on. -/
inductive MethodOwner where
  /-- Nothing: a free function. -/
  | free
  /-- The instances of a class. -/
  | instances (c : ClassId)
  /-- A class as an object. -/
  | classObject (c : ClassId)
deriving DecidableEq, Repr

/-- The owners as numbers. -/
def MethodOwner.code : MethodOwner → Nat
  | free => 0
  | instances c => 2 * c.index + 1
  | classObject c => 2 * c.index + 2

theorem MethodOwner.code_inj {o p : MethodOwner} : o.code = p.code ↔ o = p := by
  refine ⟨fun h => ?_, congrArg code⟩
  cases o <;> cases p <;> simp only [code] at h <;> first | rfl | omega | congr 1
  all_goals exact Handle.ext_index (by omega)

/-- A definition with its owner and restrictions resolved. -/
structure Method where
  definition : Definition
  owner : MethodOwner
  /-- One entry for each parameter. -/
  restrictions : List (Option TypeId)

namespace Method

/-- The restriction of a parameter as written, `self` still in it. -/
def declared (m : Method) (i : Nat) : Option TypeId := (m.restrictions[i]?).join

/-- The restriction of a parameter for a given receiver. -/
def restriction (m : Method) (i : Nat) (receiver : Option TypeId) :
    StateM TypeTable (Option TypeId) :=
  match m.declared i with
  | none => pure none
  | some a => some <$> TypeTable.forReceiver a (receiver.getD .object)

end Method

/-- The overload sets of one name: for the code of each owner its methods, in the order of
registration. -/
abbrev OverloadSets := Std.ExtTreeMap Nat (List MethodId) compare

/-- The overload set of an owner. -/
def OverloadSets.of (s : OverloadSets) (owner : MethodOwner) : List MethodId :=
  s[owner.code]?.getD []

structure MethodTable where
  methods : Array Method
  named : Map .name OverloadSets

namespace MethodTable

def empty : MethodTable := ⟨#[], ∅⟩

def size (ms : MethodTable) : Nat := ms.methods.size

def isEmpty (ms : MethodTable) : Bool := ms.methods.isEmpty

/-- Every method, in the order of registration. -/
def ids (ms : MethodTable) : List MethodId := (List.range ms.size).map (⟨·⟩)

def get? (ms : MethodTable) (m : MethodId) : Option Method := ms.methods[m.index]?

/-- The overload set of a name and an owner, in the order of registration. -/
def overloads (ms : MethodTable) (n : Name) (owner : MethodOwner) : List MethodId :=
  (ms.named[n]?.getD ∅).of owner

/-- The methods with the overload set of a name and an owner made, if there is none. -/
def opened (ms : MethodTable) (n : Name) (owner : MethodOwner) : MethodTable :=
  { ms with named := ms.named.insert n ((ms.named[n]?.getD ∅).insertIfNew owner.code []) }

/-- Add a method at the end, and to its overload set. -/
def push (ms : MethodTable) (m : Method) : MethodTable where
  methods := ms.methods.push m
  named := ms.named.insert m.definition.name <|
    (ms.named[m.definition.name]?.getD ∅).insert m.owner.code
      (ms.overloads m.definition.name m.owner ++ [⟨ms.size⟩])

/-- Where a call on a receiver of a given shape looks for methods, in this order. A class object
is an instance of the root class too. -/
def lookupOrder (h : Hierarchy) : Shape → List MethodOwner
  | .exact c | .below c => (h.ancestors c).map .instances
  | .classObject c => (h.ancestors c).map .classObject ++ [.instances .object]
  | .never | .self | .union _ => []

/-- The methods that a call on a receiver, no union, may go to, nearest owner first; without a
receiver, the free functions. -/
def candidates (ms : MethodTable) (h : Hierarchy) (t : TypeTable) (n : Name) :
    Option TypeId → List MethodId
  | none => ms.overloads n .free
  | some receiver => (lookupOrder h (t.shape receiver)).flatMap (ms.named[n]?.getD ∅).of

/-- Whether some member of a type has a candidate. -/
def understands (ms : MethodTable) (h : Hierarchy) (t : TypeTable) (n : Name)
    (receiver : TypeId) : Bool :=
  (t.members receiver).any fun m => !(ms.candidates h t n (some m)).isEmpty

/-! ## Signatures -/

/-- A parameter with its restriction; of a default only its presence is shown. -/
def paramText (h : Hierarchy) (t : TypeTable) (names : NameTable) (p : Param)
    (restriction : Option TypeId) : String :=
  names.text p.name ++ ((restriction.map fun a => " : " ++ h.typeText t names a).getD "") ++
    (if p.default.isSome then " = ..." else "")

/-- The signature of a method, such as `Foo#bar(x : Int, y = ...)`. -/
def signatureOf (h : Hierarchy) (t : TypeTable) (names : NameTable) (m : Method) : String :=
  let owner := match m.owner with
    | .free => ""
    | .instances c => names.text (h.name c) ++ "#"
    | .classObject c => names.text (h.name c) ++ "."
  let params := List.zipWith (paramText h t names) m.definition.params m.restrictions
  owner ++ names.text m.definition.name ++ "(" ++ ", ".intercalate params ++ ")"

def signature (ms : MethodTable) (h : Hierarchy) (t : TypeTable) (names : NameTable)
    (m : MethodId) : String :=
  ((ms.get? m).map (signatureOf h t names)).getD ""

/-- The signatures of all methods that a call on a receiver, or on a member of it, may go to, in
the order of registration. -/
def signatures (ms : MethodTable) (h : Hierarchy) (t : TypeTable) (names : NameTable) (n : Name)
    (receiver : Option TypeId) : List String :=
  let receivers := match receiver with
    | none => [none]
    | some a => (t.members a).map some
  (Handle.sorted (receivers.flatMap (ms.candidates h t n))).map (ms.signature h t names)

/-! ## Registration -/

/-- What a written owner stands for. -/
def resolveOwner (h : Hierarchy) (names : NameTable) (d : Definition) :
    Except TypeError MethodOwner :=
  match d.owner with
  | none => .ok .free
  | some (.instances c) => .instances <$> h.requireClass names c d.span
  | some (.classObject c) => .classObject <$> h.requireClass names c d.span

/-- The first parameter without a default that follows one with a default. -/
def misplacedParam? (d : Definition) : Option Param :=
  (d.params.dropWhile (·.default.isNone)).find? (·.default.isNone)

/-- What the restrictions of some parameters stand for. -/
def resolveParams (h : Hierarchy) (names : NameTable) :
    List Param → ExceptT TypeError (StateM TypeTable) (List (Option TypeId))
  | [] => pure []
  | p :: ps => do
    let a ← match p.restriction with
      | none => pure none
      | some r => some <$> h.resolveRestriction names p.span r
    let as ← resolveParams h names ps
    return a :: as

/-- The method that a definition stands for. Its owner and restrictions must name classes, and its
defaults must come last. -/
def resolveMethod (h : Hierarchy) (names : NameTable) (d : Definition) :
    ExceptT TypeError (StateM TypeTable) Method := do
  let owner ← liftM (resolveOwner h names d)
  if let some p := misplacedParam? d then
    throw ⟨.requiredAfterDefault (names.text d.name) (names.text p.name), p.span⟩
  return ⟨d, owner, ← resolveParams h names d.params⟩

/-- A method of an overload set with given restrictions. -/
def duplicate? (ms : MethodTable) (n : Name) (owner : MethodOwner)
    (restrictions : List (Option TypeId)) : Option Method :=
  (ms.overloads n owner).findSome? fun i => (ms.get? i).filter (·.restrictions = restrictions)

/-- Enter a method into the overload set of its name and owner, where no other may have the same
restrictions. The set is made before this is checked. -/
def enter (h : Hierarchy) (names : NameTable) (m : Method) :
    StateT MethodTable (StateM TypeTable) (Except TypeError MethodId) := do
  modify (·.opened m.definition.name m.owner)
  let ms ← get
  match ms.duplicate? m.definition.name m.owner m.restrictions with
  | some previous =>
    let signature := signatureOf h (← getThe TypeTable) names m
    return .error ⟨.duplicateDefinition signature previous.definition.span, m.definition.span⟩
  | none =>
    set (ms.push m)
    return .ok ⟨ms.size⟩

/-- Register a definition. What was done to the methods and the types before it fails stays done. -/
def add (h : Hierarchy) (names : NameTable) (d : Definition) :
    StateT MethodTable (StateM TypeTable) (Except TypeError MethodId) := do
  match ← (resolveMethod h names d).run with
  | .ok m => enter h names m
  | .error e => return .error e

/-- Register some definitions, leaving out and reporting those that fail. -/
def addAll (h : Hierarchy) (names : NameTable) :
    List Definition → StateT MethodTable (StateM TypeTable) (List TypeError)
  | [] => pure []
  | d :: ds => do
    match ← add h names d with
    | .ok _ => addAll h names ds
    | .error e => return e :: (← addAll h names ds)

end MethodTable

end Multimethod
