import Multimethod.Handle
import Multimethod.Primitive
import Multimethod.Span

/-!
# The expression arena

Expressions are stored one after another and refer to each other by position. A list of
expressions (the arguments of a call, the statements of a block) is a range of a side table.
-/

namespace Multimethod

/-- A run of entries in the list table of an arena. -/
structure Range where
  start : Nat
  length : Nat
deriving DecidableEq, Repr

def Range.isEmpty (r : Range) : Bool := r.length = 0

/-- What an expression is, its parts given by position. -/
inductive Node where
  | nil
  | bool (b : Bool)
  | int (n : Int64)
  | float (x : Float)
  | self
  | var (name : Name)
  | assign (name : Name) (value : ExprId)
  | ivar (name : Name)
  | setIvar (name : Name) (value : ExprId)
  /-- A class used as a value. -/
  | const (name : Name)
  /-- A call; without a receiver it goes to `self` or to a free function. -/
  | call (receiver : Option ExprId) (method : Name) (args : Range)
  | cond (test yes : ExprId) (no : Option ExprId)
  | loop (test body : ExprId)
  | andAlso (left right : ExprId)
  | orElse (left right : ExprId)
  | ret (value : Option ExprId)
  | block (stmts : Range)
  | primitive (op : Primitive) (args : Range)

/-- An expression and where it stands. -/
structure Expr where
  node : Node
  span : Span

/-- The expressions of one source, and their lists. -/
structure Arena where
  exprs : Array Expr := #[]
  lists : Array ExprId := #[]

namespace Arena

/-- Store an expression at the end. -/
def push (a : Arena) (e : Expr) : ExprId × Arena :=
  (⟨a.exprs.size⟩, { a with exprs := a.exprs.push e })

/-- Store a list at the end of the list table. -/
def pushList (a : Arena) (ids : List ExprId) : Range × Arena :=
  (⟨a.lists.size, ids.length⟩, { a with lists := a.lists ++ ids.toArray })

def find? (a : Arena) (id : ExprId) : Option Expr := a.exprs[id.index]?

def list (a : Arena) (r : Range) : List ExprId :=
  (a.lists.extract r.start (r.start + r.length)).toList

def size (a : Arena) : Nat := a.exprs.size

def isEmpty (a : Arena) : Bool := a.exprs.isEmpty

/-- The parts of a node, left to right. -/
def children (a : Arena) : Node → List ExprId
  | .nil | .bool _ | .int _ | .float _ | .self | .var _ | .ivar _ | .const _ => []
  | .assign _ value | .setIvar _ value => [value]
  | .call receiver _ args => receiver.toList ++ a.list args
  | .cond test yes no => test :: yes :: no.toList
  | .loop test body => [test, body]
  | .andAlso left right | .orElse left right => [left, right]
  | .ret value => value.toList
  | .block stmts => a.list stmts
  | .primitive _ args => a.list args

end Arena

end Multimethod
