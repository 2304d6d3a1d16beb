import Multimethod.Inference.Program
import Multimethod.RunError

/-!
# The machine that runs programs

A program is run in small steps. A configuration says what is to be done next (`Control`), in which
activation (`Activation`: the locals of one running body and what of it remains to be done), which
activations wait for it (`Caller`), and what the objects hold. Calls that are nested are a list, so
only the limit on their depth bounds them.
-/

namespace Multimethod.Machine

/-- What remains to be done with the value of the expression that is being evaluated. The handle
is that of the expression to which the work belongs. -/
inductive Kont where
  | assign (id : ExprId) (name : Name)
  | setIvar (id : ExprId) (name : Name)
  /-- The value is the receiver of a call. -/
  | receiver (site : Site) (method : Name) (args : List Term)
  /-- The value is the next argument of a call. -/
  | argument (site : Site) (receiver : Option Value) (method : Name) (done : List Value)
    (todo : List Term)
  /-- The value decides which branch is taken. -/
  | choose (id : ExprId) (yes : Term) (no : Option Term)
  | loopTest (id : ExprId) (test body : Term)
  | loopBody (id : ExprId) (test body : Term)
  | andAlso (id : ExprId) (right : Term)
  | orElse (id : ExprId) (right : Term)
  | ret
  /-- The value is that of a statement of a block. -/
  | stmt (id : ExprId) (todo : List Term)
  /-- The value is the next operand of a primitive operation. -/
  | operand (site : Site) (op : Primitive) (done : List Value) (todo : List Term)
  /-- The value is that of another expression too. -/
  | same (id : ExprId)
  /-- The value is that of a parameter's default. -/
  | default (p : Param) (rest : List Param) (code : Term)
  /-- The value is that of a top-level statement. -/
  | top (todo : List Term)

/-- One running body. -/
structure Activation where
  /-- The specialization that is run; none for the top level. -/
  unit : Option SpecId
  receiver : Option Value
  locals : Map .name Value := ∅
  konts : List Kont := []

/-- An activation that waits for a call to return. -/
structure Caller where
  activation : Activation
  /-- The expression that is the call. -/
  call : ExprId
  /-- The object under construction, if what was called is its initializer. It is the value of the
  call, whatever the initializer returns. -/
  object : Option Value

/-- What is to be done next. -/
inductive Control where
  /-- Evaluate a term. -/
  | eval (t : Term)
  /-- The expression `id` of the running body has the value `v`. -/
  | value (id : ExprId) (v : Value)
  /-- Make a call; receiver and arguments are evaluated. -/
  | call (site : Site) (receiver : Option Value) (method : Name) (args : List Value)
  /-- Apply a primitive operation; its operands are evaluated. -/
  | apply (site : Site) (op : Primitive) (operands : List Value)
  /-- Bind parameters, to arguments as long as there are any and then to the values of their
  defaults; then run `code`. -/
  | bind (params : List Param) (args : List Value) (code : Term)
  /-- Return early with a value. -/
  | unwind (v : Value)
  /-- Give up, because of an error. -/
  | raise (e : RunError)
  /-- Go on with the top-level statements after one of value `last`. -/
  | top (last : Value) (todo : List Term)
  /-- Nothing; the run has ended. -/
  | done (result : Except RunError Value)

structure Config where
  control : Control
  activation : Activation
  callers : List Caller := []
  /-- How many calls are nested. -/
  depth : Nat := 0
  heap : Heap

/-- How a run ended, and what the objects hold then. -/
structure Outcome where
  result : Except RunError Value
  heap : Heap

/-- How deeply calls may be nested where nothing else is asked for. -/
def defaultDepth : Nat := 10000

/-- The value of `self` outside methods, the first object of every run. -/
def mainObject : Value := .object ⟨0⟩ .object

namespace Config

/-- The configuration with something else to be done next. -/
def run (c : Config) (control : Control) : Config := { c with control }

/-- Go on with `control`, and then with `k`. -/
def push (c : Config) (k : Kont) (control : Control) : Config :=
  { c with control, activation := { c.activation with konts := k :: c.activation.konts } }

/-- The configuration with the first piece of work taken off. -/
def pop (c : Config) (konts : List Kont) : Config :=
  { c with activation := { c.activation with konts } }

def setLocal (c : Config) (n : Name) (v : Value) : Config :=
  { c with activation := { c.activation with locals := c.activation.locals.insert n v } }

/-- Fail at a place in the source. -/
def fail (c : Config) (cause : RunError.Cause) (span : Span) : Config :=
  c.run (.raise ⟨cause, span⟩)

/-- How the run ended, if it has. -/
def outcome? (c : Config) : Option Outcome :=
  match c.control with
  | .done result => some ⟨result, c.heap⟩
  | _ => none

/-- The value of `self`. -/
def self (c : Config) : Value := c.activation.receiver.getD mainObject

/-- An instance variable of `self`; there are none outside objects. -/
def ivar (c : Config) (n : Name) : Value :=
  match c.activation.receiver with
  | some (.object o _) => c.heap.get o n
  | _ => .nil

def setIvar (c : Config) (n : Name) (v : Value) : Config :=
  match c.activation.receiver with
  | some (.object o _) => { c with heap := c.heap.set o n v }
  | _ => c

end Config

end Multimethod.Machine
