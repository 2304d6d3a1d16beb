import Multimethod.Expr.Arena

/-!
# Terms

A term is an expression of an arena spelled out as a tree; every node remembers its position and
span. Checking and running follow the tree. An expression used twice is the same tree twice, with
the same positions.
-/

namespace Multimethod

/-- Where a term stands: its position in the arena and its span. -/
structure Site where
  id : ExprId
  span : Span
deriving DecidableEq, Inhabited

inductive Term where
  | nil (site : Site)
  | bool (site : Site) (b : Bool)
  | int (site : Site) (n : Int64)
  | float (site : Site) (x : Float)
  | self (site : Site)
  | var (site : Site) (name : Name)
  | assign (site : Site) (name : Name) (value : Term)
  | ivar (site : Site) (name : Name)
  | setIvar (site : Site) (name : Name) (value : Term)
  | const (site : Site) (name : Name)
  | call (site : Site) (receiver : Term) (method : Name) (args : List Term)
  /-- A call without a receiver. -/
  | send (site : Site) (method : Name) (args : List Term)
  | ifThen (site : Site) (test yes : Term)
  | ifElse (site : Site) (test yes no : Term)
  | loop (site : Site) (test body : Term)
  | andAlso (site : Site) (left right : Term)
  | orElse (site : Site) (left right : Term)
  | ret (site : Site)
  | retValue (site : Site) (value : Term)
  | block (site : Site) (stmts : List Term)
  | primitive (site : Site) (op : Primitive) (args : List Term)

namespace Term

instance : Inhabited Term := ⟨.nil default⟩

def site : Term → Site
  | nil s | bool s _ | int s _ | float s _ | self s | var s _ | assign s _ _ | ivar s _
  | setIvar s _ _ | const s _ | call s _ _ _ | send s _ _ | ifThen s _ _ | ifElse s _ _ _
  | loop s _ _ | andAlso s _ _ | orElse s _ _ | ret s | retValue s _ | block s _
  | primitive s _ _ => s

def id (t : Term) : ExprId := t.site.id

def span (t : Term) : Span := t.site.span

end Term

/-- The tree of a node whose parts are given by `child` and whose lists by `list`. -/
def Node.term (site : Site) (child : ExprId → Term) (list : Range → List Term) : Node → Term
  | .nil => .nil site
  | .bool b => .bool site b
  | .int n => .int site n
  | .float x => .float site x
  | .self => .self site
  | .var name => .var site name
  | .assign name value => .assign site name (child value)
  | .ivar name => .ivar site name
  | .setIvar name value => .setIvar site name (child value)
  | .const name => .const site name
  | .call (some receiver) method args => .call site (child receiver) method (list args)
  | .call none method args => .send site method (list args)
  | .cond test yes none => .ifThen site (child test) (child yes)
  | .cond test yes (some no) => .ifElse site (child test) (child yes) (child no)
  | .loop test body => .loop site (child test) (child body)
  | .andAlso left right => .andAlso site (child left) (child right)
  | .orElse left right => .orElse site (child left) (child right)
  | .ret none => .ret site
  | .ret (some value) => .retValue site (child value)
  | .block stmts => .block site (list stmts)
  | .primitive op args => .primitive site op (list args)

namespace Arena

/-- The tree at position `id` of a table of trees; a position outside it reads as `nil`. -/
def termAt (ts : Array Term) (id : ExprId) : Term := ts.getD id.index (.nil ⟨id, .dummy⟩)

/-- The trees of all expressions. A node is spelled out after everything stored before it, which is
where its parts are. -/
def terms (a : Arena) : Array Term :=
  a.exprs.foldl (fun ts e =>
    ts.push (e.node.term ⟨⟨ts.size⟩, e.span⟩ (termAt ts) fun r => (a.list r).map (termAt ts))) #[]

end Arena

end Multimethod
