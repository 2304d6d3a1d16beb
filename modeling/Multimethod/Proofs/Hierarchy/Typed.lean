import Multimethod.Proofs.Hierarchy.Grounded
import Multimethod.Proofs.Resolution.Reachable

/-!
# The types of declared classes

When a class is declared, the type of its instances is described. So in whatever is reached from the
predefined classes the exact types of all classes are there (`Hierarchy.Typed`).
-/

namespace Multimethod.Hierarchy

open TypeTable

variable {h h' : Hierarchy} {t u : TypeTable}

/-- The exact types of all classes are described. -/
def Typed (h : Hierarchy) (t : TypeTable) : Prop :=
  ∀ c : ClassId, c.index < h.size → ∃ a, t.Has a ∧ t.shape a = .exact c

namespace Typed

theorem mono (T : h.Typed t) (hle : t ≤ u) : h.Typed u := fun c hc => by
  obtain ⟨a, ha, hs⟩ := T c hc
  exact ⟨a, ha.mono hle, (ha.shape_eq hle).trans hs⟩

theorem of_size_eq (T : h.Typed t) (hsize : h'.size = h.size) : h'.Typed t :=
  fun c hc => T c (hsize ▸ hc)

theorem add (hT : t.WF ∧ h.Typed t) (n : Name) (span : Span) :
    (h.add n span t).2.WF ∧ (h.add n span t).1.Typed (h.add n span t).2 := by
  obtain ⟨H, T⟩ := hT
  have hd := (Declared.add (h := h) H n span).1
  refine ⟨hd.wf, ?_⟩
  intro c hc
  rcases described_add (s := .exact c) H hc with hold | hnew
  · exact T.mono hd.types c hold
  · exact hnew

theorem place (hT : t.WF ∧ h.Typed t) (c p : ClassId) : t.WF ∧ (h.place c p).Typed t :=
  ⟨hT.1, hT.2.of_size_eq (size_place c p)⟩

end Typed

theorem Typed.declare (T : h.Typed t) (H : t.WF) (names : NameTable) (ds : List ClassDecl) :
    (h.declare names ds t).1.2.Typed (h.declare names ds t).2 :=
  (declare_induction (motive := fun h t => t.WF ∧ h.Typed t) (fun _ _ n span hT => Typed.add hT n span)
    (fun _ _ c p hT => Typed.place hT c p) names ds ⟨H, T⟩).2

/-! ## Everything that is reached -/

theorem initial_typed {core : CoreNames} (H : t.WF) : (initial core t).1.Typed (initial core t).2 := by
  have hnone : (⟨∅⟩ : Hierarchy).Typed t := fun c hc => absurd hc (Nat.not_lt_zero _)
  exact (initial_induction (motive := fun h t => t.WF ∧ h.Typed t)
    (fun _ _ n span hT => Typed.add hT n span) (fun _ _ c p hT => Typed.place hT c p) core
    ⟨H, hnone⟩).2

theorem Step.typed {x y : Hierarchy × TypeTable} (hs : Step x y) (D : Described x.1 x.2)
    (T : x.1.Typed x.2) : y.1.Typed y.2 := by
  have hle := hs.types_le D
  cases hs with
  | describe => exact T.mono hle
  | declare h t names ds => exact T.declare D.types names ds
  | @assignIvar h t c a n => exact (T.mono hle).of_size_eq (size_assignIvar h c n a t)

end Multimethod.Hierarchy
