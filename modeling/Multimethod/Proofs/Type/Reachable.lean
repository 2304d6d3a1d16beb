import Mathlib.Logic.Relation
import Multimethod.Proofs.Type.Settles

/-!
# Reachable type tables

A table of types is changed by describing types only, in one of eight ways (`Op`). Every table that
is reached from that of the predefined types in this way is well formed (`Reachable.wf`), and
describes all that the tables before it describe (`Later.grows`).
-/

namespace Multimethod.TypeTable

variable {t u v : TypeTable} {a b c : TypeId}

/-- A way to describe a type. -/
inductive Op where
  | exact (c : ClassId)
  | below (c : ClassId)
  | classObject (c : ClassId)
  | union (a b : TypeId)
  | unionOf (as : List TypeId)
  | orNil (a : TypeId)
  | dropNil (a : TypeId)
  | forReceiver (a receiver : TypeId)

namespace Op

/-- The type that is described. -/
def run : Op → StateM TypeTable TypeId
  | exact c => TypeTable.exact c
  | below c => TypeTable.below c
  | classObject c => TypeTable.classObject c
  | union a b => TypeTable.union a b
  | unionOf as => TypeTable.unionOf as
  | orNil a => TypeTable.orNil a
  | dropNil a => TypeTable.dropNil a
  | forReceiver a receiver => TypeTable.forReceiver a receiver

/-- The types that it is described by. -/
def operands : Op → List TypeId
  | exact _ | below _ | classObject _ => []
  | union a b => [a, b]
  | unionOf as => as
  | orNil a | dropNil a => [a]
  | forReceiver a receiver => [a, receiver]

/-- The types that it is described by are there. -/
def Fits (t : TypeTable) (o : Op) : Prop := ∀ a ∈ o.operands, t.Has a

instance (t : TypeTable) (o : Op) : Decidable (o.Fits t) :=
  inferInstanceAs (Decidable (∀ a ∈ o.operands, t.Has a))

theorem run_settles (H : t.WF) {o : Op} (ho : o.Fits t) : Settles t o.run fun a u => u.Has a := by
  cases o with
  | exact c => exact (exact_settles H c).mono fun _ _ _ _ h => h.1
  | below c => exact (below_settles H c).mono fun _ _ _ _ h => h.1
  | classObject c => exact (classObject_settles H c).mono fun _ _ _ _ h => h.1
  | union a b =>
    exact (union_settles H (ho a (by simp [operands])) (ho b (by simp [operands]))).mono
      fun _ _ _ _ h => h.1
  | unionOf as => exact (unionOf_settles H ho).mono fun _ _ _ _ h => h.1
  | orNil a => exact (orNil_settles H (ho a (by simp [operands]))).mono fun _ _ _ _ h => h.1
  | dropNil a => exact (dropNil_settles H (ho a (by simp [operands]))).mono fun _ _ _ _ h => h.1
  | forReceiver a receiver =>
    exact (forReceiver_settles H (ho a (by simp [operands])) (ho receiver (by simp [operands]))).mono
      fun _ _ _ _ h => h.1

end Op

/-- One more type may be described. -/
def Step (t u : TypeTable) : Prop := ∃ o : Op, o.Fits t ∧ (o.run t).2 = u

/-- `u` is reached from `t` by describing types. -/
abbrev Later : TypeTable → TypeTable → Prop := Relation.ReflTransGen Step

/-- A table that is reached from that of the predefined types. -/
abbrev Reachable (t : TypeTable) : Prop := Later initial t

theorem Step.run {o : Op} (ho : o.Fits t) : Step t (o.run t).2 := ⟨o, ho, rfl⟩

theorem Step.grows (h : Step t u) (H : t.WF) : u.WF ∧ t ≤ u := by
  obtain ⟨o, ho, rfl⟩ := h
  have hs := o.run_settles H ho
  exact ⟨hs.wf, hs.le⟩

theorem Later.grows (h : Later t u) (H : t.WF) : u.WF ∧ t ≤ u := by
  induction h with
  | refl => exact ⟨H, le_refl t⟩
  | tail _ hs ih =>
    obtain ⟨hwf, hle⟩ := hs.grows ih.1
    exact ⟨hwf, le_trans ih.2 hle⟩

theorem Reachable.wf (h : Reachable t) : t.WF := (Later.grows h initial_wf).1

end Multimethod.TypeTable
