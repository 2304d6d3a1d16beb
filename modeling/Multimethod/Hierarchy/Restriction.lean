import Multimethod.Hierarchy.Basic

/-!
# Written restrictions

What a restriction as written stands for: a name for the instances of its class, `?` for one more
member `nil`, `|` for a union. The leftmost unknown name is reported.
-/

namespace Multimethod.Hierarchy

mutual

/-- The type that a restriction stands for. -/
def resolveRestriction (h : Hierarchy) (names : NameTable) (span : Span) :
    Restriction → ExceptT TypeError (StateM TypeTable) TypeId
  | .named n => do
    let c ← liftM (m := Except TypeError) (h.requireClass names n span)
    TypeTable.exact c
  | .nilable r => do
    let a ← resolveRestriction h names span r
    TypeTable.orNil a
  | .union rs => do
    let as ← resolveRestrictions h names span rs
    TypeTable.unionOf as
  | .self => pure .self

/-- The types that some restrictions stand for, left to right. -/
def resolveRestrictions (h : Hierarchy) (names : NameTable) (span : Span) :
    List Restriction → ExceptT TypeError (StateM TypeTable) (List TypeId)
  | [] => pure []
  | r :: rs => do
    let a ← resolveRestriction h names span r
    let as ← resolveRestrictions h names span rs
    return a :: as

end

end Multimethod.Hierarchy
