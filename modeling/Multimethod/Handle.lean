import Std.Data.ExtTreeMap
import Std.Data.ExtTreeSet

/-!
# Handles

Everything that is stored once and referred to many times (names, expressions, classes, types,
methods, specializations, objects) is referred to by its position in the store that holds it.
A handle carries the kind of store in its type, so a handle of one kind is never taken for a
handle of another. Finite maps keyed by handles are ordered trees.
-/

namespace Multimethod

/-- The stores that hand out handles. -/
inductive Kind where
  | name | expr | cls | type | method | specialization | object

/-- A position in a store of kind `k`. -/
structure Handle (k : Kind) where
  index : Nat
deriving DecidableEq, Hashable, Repr, Inhabited

namespace Handle

variable {k : Kind}

instance : LT (Handle k) := ⟨fun a b => a.index < b.index⟩

instance : LE (Handle k) := ⟨fun a b => a.index ≤ b.index⟩

instance : DecidableLT (Handle k) := fun a b => inferInstanceAs (Decidable (a.index < b.index))

instance : DecidableLE (Handle k) := fun a b => inferInstanceAs (Decidable (a.index ≤ b.index))

@[ext] theorem ext_index {a b : Handle k} (h : a.index = b.index) : a = b := by
  cases a; cases b; simp_all

@[simp] theorem index_inj {a b : Handle k} : a.index = b.index ↔ a = b :=
  ⟨ext_index, congrArg index⟩

@[simp] theorem map_index_inj {l m : List (Handle k)} : l.map index = m.map index ↔ l = m :=
  List.map_inj_right fun _ _ => ext_index

instance : Ord (Handle k) := ⟨compareOn index⟩

instance : Std.TransOrd (Handle k) := inferInstanceAs (Std.TransCmp (compareOn index))

instance : Std.LawfulEqOrd (Handle k) where
  compare_self := Std.ReflOrd.compare_self (α := Nat)
  eq_of_compare h := ext_index (Std.LawfulEqOrd.eq_of_compare (α := Nat) h)

theorem compare_eq_lt {a b : Handle k} : compare a b = .lt ↔ a < b := Nat.compare_eq_lt

/-- The given handles in increasing order, each once. -/
def sorted (hs : List (Handle k)) : List (Handle k) := (Std.ExtTreeSet.ofList hs compare).toList

@[simp] theorem mem_sorted {a : Handle k} {hs : List (Handle k)} : a ∈ sorted hs ↔ a ∈ hs := by
  simp [sorted]

theorem pairwise_sorted (hs : List (Handle k)) : (sorted hs).Pairwise (· < ·) :=
  Std.ExtTreeSet.ordered_toList.imp compare_eq_lt.1

/-- An increasing list is determined by its members. -/
theorem eq_of_mem_iff {l m : List (Handle k)} (hl : l.Pairwise (· < ·)) (hm : m.Pairwise (· < ·))
    (h : ∀ a, a ∈ l ↔ a ∈ m) : l = m := by
  induction l generalizing m with
  | nil => exact (List.eq_nil_iff_forall_not_mem.2 fun a ha => by simpa using (h a).2 ha).symm
  | cons a r ih =>
    cases m with
    | nil => exact absurd ((h a).1 (.head _)) (by simp)
    | cons b s =>
      rw [List.pairwise_cons] at hl hm
      have hab : a = b := by
        rcases List.mem_cons.1 ((h a).1 (.head _)) with ha | ha
        · exact ha
        · rcases List.mem_cons.1 ((h b).2 (.head _)) with hb | hb
          · exact hb.symm
          · exact absurd (Nat.lt_trans (hl.1 _ hb) (hm.1 _ ha)) (Nat.lt_irrefl _)
      subst hab
      have tail {t u : List (Handle k)} (ht : ∀ c ∈ t, a < c)
          (htu : ∀ c, c ∈ a :: t → c ∈ a :: u) : ∀ c ∈ t, c ∈ u := fun c hc => by
        rcases List.mem_cons.1 (htu c (.tail _ hc)) with rfl | hu
        · exact absurd (ht _ hc) (Nat.lt_irrefl _)
        · exact hu
      rw [ih hl.2 hm.2 fun c =>
        ⟨tail hl.1 (fun c => (h c).1) c, tail hm.1 (fun c => (h c).2) c⟩]

/-- Sorting forgets all but the members. -/
theorem sorted_congr {l m : List (Handle k)} (h : ∀ a, a ∈ l ↔ a ∈ m) : sorted l = sorted m :=
  eq_of_mem_iff (pairwise_sorted l) (pairwise_sorted m) fun a => by simp [h]

theorem sorted_eq_self {l : List (Handle k)} (h : l.Pairwise (· < ·)) : sorted l = l :=
  eq_of_mem_iff (pairwise_sorted l) h fun _ => mem_sorted

end Handle

/-- A finite map keyed by handles of kind `k`. Its bindings are listed in the order of the handles,
and maps that answer every look-up alike are equal. -/
abbrev Map (k : Kind) (α : Type) := Std.ExtTreeMap (Handle k) α compare

theorem Map.getElem?_insert_ne {k : Kind} {α : Type} {m : Map k α} {i j : Handle k} {a : α}
    (h : j ≠ i) : (m.insert i a)[j]? = m[j]? := by
  rw [Std.ExtTreeMap.getElem?_insert, if_neg fun hc => h (Std.compare_eq_iff_eq.1 hc).symm]

/-- An interned identifier. -/
abbrev Name := Handle .name

/-- An expression of an arena. -/
abbrev ExprId := Handle .expr

/-- A class of a hierarchy. -/
abbrev ClassId := Handle .cls

/-- A type of a type table. -/
abbrev TypeId := Handle .type

/-- A method of a method table. -/
abbrev MethodId := Handle .method

/-- A specialization of a method. -/
abbrev SpecId := Handle .specialization

/-- An object of a heap. -/
abbrev ObjectId := Handle .object

end Multimethod
