import Multimethod.Proofs.Hierarchy.Growth
import Multimethod.Proofs.Hierarchy.Restriction

/-!
# Restrictions by what they denote

A restriction is resolved if classes have all the names in it, and then to the type that it denotes:
however a restriction is written and whenever it is resolved, what denotes the same is the same type
(`reachable_restriction`).
-/

namespace Multimethod.Hierarchy

open Relation TypeTable

variable {h : Hierarchy} {t : TypeTable}

/-- The names that come before the leftmost one that no class has are known. -/
theorem unknown?_eq_some {ns : List Name} {n : Name} : h.unknown? ns = some n ↔
    h.find? n = none ∧ ∃ known rest, ns = known ++ n :: rest ∧
      ∀ m ∈ known, ∃ c, h.find? m = some c := by
  simp [unknown?, List.find?_eq_some_iff_append, Option.isSome_iff_exists]

/-- A restriction is resolved if and only if all its names are known, to the type that it denotes,
and what denotes the same then or later on is resolved to the same type; else the complaint is the
leftmost unknown name. -/
structure ByDenotation (h : Hierarchy) (t : TypeTable) (names : NameTable) (span : Span)
    (r : Restriction) : Prop where
  ok_iff : (∃ a, (h.resolveRestriction names span r t).1 = .ok a) ↔
    ∀ n ∈ r.names, ∃ c, h.find? n = some c
  stands : ∀ a, (h.resolveRestriction names span r t).1 = .ok a →
    h.Stands r a (h.resolveRestriction names span r t).2
  same : ∀ a, (h.resolveRestriction names span r t).1 = .ok a →
    ∀ h' u, ReflTransGen Step (h, (h.resolveRestriction names span r t).2) (h', u) →
      ∀ r', (∀ n ∈ r'.names, ∃ c, h'.find? n = some c) →
        (∀ s, h'.Denotes r' s ↔ h.Denotes r s) →
          ∀ names' span', (h'.resolveRestriction names' span' r' u).1 = .ok a
  error : ∀ known n rest, r.names = known ++ n :: rest →
    (∀ m ∈ known, ∃ c, h.find? m = some c) → h.find? n = none →
      (h.resolveRestriction names span r t).1 = .error ⟨.unknownType (names.text n), span⟩

theorem resolveRestriction_ok (names : NameTable) (span : Span) {r : Restriction} (H : t.WF)
    (hr : h.unknown? r.names = none) : ∃ a, (h.resolveRestriction names span r t).1 = .ok a := by
  have hs := h.resolveRestriction_stands names span r H
  cases hx : (h.resolveRestriction names span r t).1 with
  | ok a => exact ⟨a, rfl⟩
  | error e =>
    obtain ⟨n, hn, -⟩ := hs.post_error hx
    cases hr.symm.trans hn

/-- Whatever classes have been declared and types described, restrictions are resolved by what they
denote. -/
theorem reachable_restriction (hr : Reachable h t) (names : NameTable) (span : Span)
    (r : Restriction) : ByDenotation h t names span r := by
  have D := hr.described
  have hs := h.resolveRestriction_stands names span r D.types
  have hok {a : TypeId} (ha : (h.resolveRestriction names span r t).1 = .ok a) :
      h.Stands r a (h.resolveRestriction names span r t).2 ∧ h.unknown? r.names = none :=
    hs.post_ok ha
  constructor
  case ok_iff =>
    rw [← unknown?_eq_none]
    constructor
    · rintro ⟨a, ha⟩
      exact (hok ha).2
    · exact resolveRestriction_ok names span D.types
  case stands => exact fun a ha => (hok ha).1
  case same =>
    intro a ha h' u hsteps r' hr' hsame names' span'
    have D₁ : Described h (h.resolveRestriction names span r t).2 := D.mono hs.wf hs.le
    have D₂ : Described h' u := D₁.later hsteps
    have hle := (D₁.grows hsteps).2
    obtain ⟨b, hb⟩ := resolveRestriction_ok names' span' D₂.types (unknown?_eq_none.2 hr')
    have hs' := h'.resolveRestriction_stands names' span' r' D₂.types
    have hstands := (hs'.post_ok hb).1
    rw [hb, Stands.unique hs.wf (hok ha).1 (le_trans hle hs'.le) hs'.wf hstands hsame]
  case error =>
    intro known n rest hnames hknown hn
    have hunknown : h.unknown? r.names = some n :=
      unknown?_eq_some.2 ⟨hn, known, rest, hnames, hknown⟩
    cases hx : (h.resolveRestriction names span r t).1 with
    | ok a => cases (hok hx).2.symm.trans hunknown
    | error e =>
      obtain ⟨m, hm, rfl⟩ := hs.post_error hx
      cases hunknown.symm.trans hm
      rfl

/-- `A? | self` with an empty union in it, where `A` is the first of the two classes. -/
def spelled : Restriction := .union [.nilable (.named ⟨9⟩), .union [], .self]

/-- `self | Nil | A` -/
def respelled : Restriction := .union [.self, .named ⟨5⟩, .named ⟨9⟩]

/-- Both are resolved to the type with the three members. -/
theorem reachable_restriction_spelled : Reachable crossed.1 crossed.2 ∧
    ByDenotation crossed.1 crossed.2 {} .dummy spelled ∧
    (crossed.1.resolveRestriction {} .dummy spelled crossed.2).1 = .ok ⟨17⟩ ∧
    (crossed.1.resolveRestriction {} .dummy respelled
      (crossed.1.resolveRestriction {} .dummy spelled crossed.2).2).1 = .ok ⟨17⟩ :=
  ⟨crossed_reachable, reachable_restriction crossed_reachable {} .dummy spelled, by decide +kernel,
    by decide +kernel⟩

end Multimethod.Hierarchy
