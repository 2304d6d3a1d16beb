import Multimethod.Proofs.Resolution.Narrowing

/-!
# Splitting and subtyping

A type is split by going down from a class to those below it, and types are compared by going up. As
the links down and up are inverse, the two agree: what a type is split into is all that it takes in,
and it is a subtype of another just if all that it is split into is (`Registry.split_faithful`).
-/

namespace Multimethod

open Relation TypeTable

variable {t u : TypeTable}

namespace Hierarchy

variable {h : Hierarchy} {s s' : Shape}

/-- A part of a member is the member itself, or an exact type of a class below, if the member takes
these in. -/
theorem Rooted.partOf_iff (R : h.Rooted) : h.PartOf s s' ↔
    s = s' ∧ (∀ c, s' ≠ .below c) ∨ ∃ c d, s = .below c ∧ s' = .exact d ∧ h.isBelow d c = true := by
  constructor
  · intro hp
    cases hp with
    | same hs => exact .inl ⟨rfl, hs⟩
    | @below c d hd =>
      exact .inr ⟨c, d, rfl, rfl, R.isBelow_iff.2 ((R.mem_descendants R.nonempty).1 hd)⟩
  · rintro (⟨rfl, hs⟩ | ⟨c, d, rfl, rfl, hd⟩)
    · exact .same hs
    · exact .below ((R.mem_descendants R.nonempty).2 (R.isBelow_iff.1 hd))

end Hierarchy

namespace Registry

variable {g : Registry} {a b : TypeId} {l : List TypeId}

namespace Parts

variable (P : g.Parts t a l u) (R : g.hierarchy.Rooted) (H : t.WF) (hle : t ≤ u) (ha : t.Has a)
  (hb : t.Has b)
include P R H hle ha hb

/-- Each part of a subtype is a subtype: it is below the member that it is a part of. -/
theorem isSubtype_part (hab : g.isSubtype t a b = true) {m : TypeId} (hm : m ∈ l) :
    g.isSubtype u m b = true := by
  obtain ⟨n, hn, hp⟩ := (P.shapes _).1 ⟨m, hm, rfl⟩
  obtain ⟨k, hk, hnk⟩ := g.hierarchy.isSubtype_iff.1 hab n hn
  have hmk := (hp.shapeLE R.toForest).trans R (.of_memberBelow R hnk)
  refine g.hierarchy.isSubtype_iff.2 fun m' hm' => ⟨k, by rwa [hb.members_eq hle], ?_⟩
  rw [members_of_isMember (P.isMember H ha hm), List.mem_singleton] at hm'
  subst hm'
  have hkt := (H.isMember_of_mem hb hk).1
  exact Hierarchy.ShapeLE.memberBelow R (P.has m' hm) (hkt.mono hle) (by rwa [hkt.shape_eq hle])

/-- Each member is below one of its parts, the class itself being one of the classes below it. -/
theorem isSubtype_of_parts (hparts : ∀ m ∈ l, g.isSubtype u m b = true) :
    g.isSubtype t a b = true := by
  refine g.hierarchy.isSubtype_iff.2 fun n hn => ?_
  obtain ⟨p, hp, hnp⟩ := Hierarchy.ShapeLE.exists_part (h := g.hierarchy) R.nonempty
    (.inl (rfl : t.shape n = t.shape n))
  obtain ⟨m, hm, rfl⟩ := (P.shapes p).2 ⟨n, hn, hp⟩
  obtain ⟨k, hk, hmk⟩ := g.hierarchy.isSubtype_iff.1 (hparts m hm) m
    (mem_members_self (P.isMember H ha hm))
  rw [hb.members_eq hle] at hk
  have hkt := (H.isMember_of_mem hb hk).1
  have hnk := hnp.trans R (.of_memberBelow R hmk)
  rw [hkt.shape_eq hle] at hnk
  exact ⟨k, hk, hnk.memberBelow R (H.isMember_of_mem ha hn).1 hkt⟩

end Parts

/-- What a type is split into: increasing types, none of which is empty, a union or takes in other
classes; they are the members of the type, and the exact types of all classes below one in the place
of a member that takes these in; and the type is a subtype just if all of them are. -/
theorem split_faithful (hg : g.Reachable t) (ha : t.Has a) (hb : t.Has b) :
    let l := (g.split a t).1
    let u := (g.split a t).2
    l.Pairwise (· < ·) ∧
    (∀ m ∈ l, u.Has m ∧ u.shape m ≠ .never ∧ (∀ c, u.shape m ≠ .below c) ∧
      ∀ ms, u.shape m ≠ .union ms) ∧
    (∀ s, (∃ m ∈ l, u.shape m = s) ↔ ∃ n ∈ t.members a, t.shape n = s ∧ (∀ c, s ≠ .below c) ∨
      ∃ c d, t.shape n = .below c ∧ s = .exact d ∧ g.hierarchy.isBelow d c = true) ∧
    (g.isSubtype t a b = true ↔ ∀ m ∈ l, g.isSubtype u m b = true) := by
  have S := hg.sound
  have R := S.rooted
  have hs := split_parts (g := g) S.types ha
  have P := hs.post
  refine ⟨P.increasing, fun m hm => ⟨P.has m hm, ?_⟩, fun s => ?_, ?_, ?_⟩
  · have hmember := P.isMember S.types ha hm
    obtain ⟨n, -, hp⟩ := (P.shapes _).1 ⟨m, hm, rfl⟩
    refine ⟨fun hs => ?_, hp.ne_below, fun ms hs => ?_⟩
    · rw [hs] at hmember
      exact hmember
    · rw [hs] at hmember
      exact hmember
  · rw [P.shapes]
    exact exists_congr fun n => and_congr_right fun _ => R.partOf_iff
  · exact fun hab m hm => P.isSubtype_part R S.types hs.le ha hb hab hm
  · exact P.isSubtype_of_parts R S.types hs.le ha hb

/-- A class with one below it, and the type of the objects of both. -/
def withSubclass : Registry × TypeTable := ((family []).1, (TypeTable.below ⟨5⟩ (family []).2).2)

theorem withSubclass_reachable : withSubclass.1.Reachable withSubclass.2 :=
  (family_reachable []).describe (o := .below ⟨5⟩) nofun

/-- It is split into the exact types of the two. -/
theorem split_faithful_subclass :
    let g := withSubclass.1
    let t := withSubclass.2
    g.Reachable t ∧ t.shape ⟨16⟩ = .below ⟨5⟩ ∧ (g.split ⟨16⟩ t).1 = [⟨12⟩, ⟨14⟩] ∧
      (g.isSubtype t ⟨16⟩ .object = true ↔
        ∀ m ∈ (g.split ⟨16⟩ t).1, g.isSubtype (g.split ⟨16⟩ t).2 m .object = true) :=
  have hfaithful := split_faithful (a := ⟨16⟩) (b := .object) withSubclass_reachable
    (by decide +kernel) (by decide +kernel)
  ⟨withSubclass_reachable, by decide +kernel, by decide +kernel, hfaithful.2.2.2⟩

end Registry

end Multimethod
