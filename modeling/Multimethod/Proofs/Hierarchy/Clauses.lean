import Mathlib.Data.List.ReduceOption
import Multimethod.Proofs.Hierarchy.Declare

/-!
# Declarations that fail

A declaration whose clause cannot be followed is reported once, and leaves the hierarchy as it was.
So it counts for nothing in what comes later: without the clauses of the declarations that failed,
the same classes are declared and there is nothing to report (`declare_excused`).
-/

namespace Multimethod.Hierarchy

variable {h : Hierarchy} {t : TypeTable} {old : Nat} {names : NameTable} {d : ClassDecl}
  {e : TypeError}

/-- What is reported of each declaration while their clauses are followed. -/
def complaints (old : Nat) (names : NameTable) : Hierarchy → List ClassDecl → List (Option TypeError)
  | _, [] => []
  | h, d :: ds =>
    let r := h.follow old names d
    r.1 :: complaints old names r.2 ds

/-- A declaration without its clause, if there is a complaint about it. -/
def excused (d : ClassDecl) : Option TypeError → ClassDecl
  | none => d
  | some _ => { d with superclass := none }

/-- The error is at the declaration, and is about what its clause says. -/
def Concerns (names : NameTable) (d : ClassDecl) (e : TypeError) : Prop :=
  e.span = d.span ∧ ∃ n, d.superclass = some n ∧
    (e.cause = .unknownType (names.text n) ∨
      e.cause = .cyclicInheritance (names.text d.name) (names.text n) ∨
        ∃ previous, e.cause = .superclassMismatch (names.text d.name) previous (names.text n))

/-! ## One declaration -/

theorem Objection.concerns {n : Name} (ho : Objection old names h d n e)
    (hn : d.superclass = some n) : Concerns names d e := by
  cases ho with
  | unknown => exact ⟨rfl, n, hn, .inl rfl⟩
  | cyclic => exact ⟨rfl, n, hn, .inr (.inl rfl)⟩
  | mismatch => exact ⟨rfl, n, hn, .inr (.inr ⟨_, rfl⟩)⟩

theorem follow_concerns (he : (h.follow old names d).1 = some e) : Concerns names d e := by
  have hfollows := follow_follows old names h d
  generalize h.follow old names d = r at hfollows he
  cases hfollows with
  | absent | same | place => cases he
  | failed hn hobjection =>
    cases he
    exact hobjection.concerns hn

/-- A clause that fails changes nothing. -/
theorem follow_excused : h.follow old names (excused d (h.follow old names d).1) =
    (none, (h.follow old names d).2) := by
  have hfollows := follow_follows old names h d
  obtain ⟨r, hr⟩ : ∃ r, h.follow old names d = r := ⟨_, rfl⟩
  rw [hr] at hfollows ⊢
  cases hfollows with
  | absent | same | place => exact hr
  | failed => rfl

/-! ## All of them -/

theorem complaints_concern (ds : List ClassDecl) (h : Hierarchy) :
    List.Forall₂ (fun d c => ∀ e, c = some e → Concerns names d e) ds
      (complaints old names h ds) := by
  induction ds generalizing h with
  | nil => exact .nil
  | cons d ds ih =>
    apply List.Forall₂.cons
    · intro e he
      exact follow_concerns he
    · exact ih _

theorem followClauses_complaints (ds : List ClassDecl) (h : Hierarchy) :
    (h.followClauses old names ds).1 = (complaints old names h ds).reduceOption := by
  induction ds generalizing h with
  | nil => rfl
  | cons d ds ih =>
    rw [followClauses_cons, complaints]
    cases hc : (h.follow old names d).1 with
    | none => rw [List.reduceOption_cons_of_none, ← ih]; rfl
    | some e => rw [List.reduceOption_cons_of_some, ← ih]; rfl

theorem followClauses_excused (old : Nat) (names : NameTable) (ds : List ClassDecl) (h : Hierarchy) :
    h.followClauses old names (List.zipWith excused ds (complaints old names h ds)) =
      ([], (h.followClauses old names ds).2) := by
  induction ds generalizing h with
  | nil => rfl
  | cons d ds ih =>
    rw [complaints, List.zipWith_cons_cons, followClauses_cons, follow_excused, ih,
      followClauses_cons]
    rfl

/-- Which names become classes does not depend on the clauses. -/
theorem addNames_excused {ds : List ClassDecl} {cs : List (Option TypeError)}
    (hcs : cs.length = ds.length) (h : Hierarchy) (t : TypeTable) :
    h.addNames (List.zipWith excused ds cs) t = h.addNames ds t := by
  induction ds generalizing cs h t with
  | nil => rw [List.zipWith_nil_left]
  | cons d ds ih =>
    cases cs with
    | nil => cases hcs
    | cons c cs =>
      have hadd : h.add (excused d c).name (excused d c).span = h.add d.name d.span := by
        cases c <;> rfl
      have hlen : cs.length = ds.length := Nat.succ.inj hcs
      rw [List.zipWith_cons_cons]
      show addNames (h.add _ _ t).1 _ (h.add _ _ t).2 = addNames (h.add _ _ t).1 _ (h.add _ _ t).2
      rw [hadd, ih hlen]

/-- Every declaration is reported at most once, in the order of the declarations. Had those that are
reported been without their clauses, nothing would have been reported, and the hierarchy and its types
would be the same. -/
theorem declare_excused (h : Hierarchy) (t : TypeTable) (names : NameTable) (ds : List ClassDecl) :
    let cs := complaints h.size names (h.addNames ds t).1 ds
    List.Forall₂ (fun d c => ∀ e, c = some e → Concerns names d e) ds cs ∧
      (h.declare names ds t).1.1 = cs.reduceOption ∧
        h.declare names (List.zipWith excused ds cs) t =
          (([], (h.declare names ds t).1.2), (h.declare names ds t).2) := by
  intro cs
  have hconcern : List.Forall₂ (fun d c => ∀ e, c = some e → Concerns names d e) ds cs :=
    complaints_concern ds _
  refine ⟨hconcern, followClauses_complaints ds _, ?_⟩
  have hadd := addNames_excused hconcern.length_eq.symm h t
  have hfollow := followClauses_excused h.size names ds (h.addNames ds t).1
  show ((((h.addNames _ t).1.followClauses h.size names _).1, placeRest h.size
    ((h.addNames _ t).1.followClauses h.size names _).2), (h.addNames _ t).2) = _
  rw [hadd, hfollow]
  rfl

end Multimethod.Hierarchy
