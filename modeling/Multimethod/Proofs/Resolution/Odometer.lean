import Mathlib.Data.List.Forall2
import Multimethod.Combination

/-!
# The order of combinations

A cursor goes through the combinations of some lists in lexicographic order: what is still to come
begins with what the cursor reads, and loses just that when it moves (`Cursor.Within.advance`). So a
round runs a function on every combination once, in this order, and leaves the cursor at the start
(`round_eq_mapM`), from where the next round begins (`rounds_eq_mapM`).
-/

theorem List.flatMap_map_eq_nil {α β γ : Type} {l : List α} {m : List β} {f : α → β → γ} :
    (l.flatMap fun a => m.map (f a)) = [] ↔ l = [] ∨ m = [] := by
  rw [List.flatMap_eq_nil_iff]
  cases l with
  | nil => simp
  | cons a l => simp +contextual

namespace Multimethod.Combination

variable {α β ρ : Type} {m : Type → Type} [Monad m]

/-! ## All combinations -/

/-- All ways to pick one element from each list, the last list varying fastest. -/
def all : List (List α) → List (List α)
  | [] => [[]]
  | l :: ls => l.flatMap fun a => (all ls).map (a :: ·)

theorem mem_all {ls : List (List α)} {c : List α} :
    c ∈ all ls ↔ List.Forall₂ (fun a l => a ∈ l) c ls := by
  induction ls generalizing c with
  | nil => simp [all, List.forall₂_nil_right_iff]
  | cons l ls ih =>
    simp only [all, List.mem_flatMap, List.mem_map]
    constructor
    · rintro ⟨a, ha, c, hc, rfl⟩
      exact .cons ha (ih.1 hc)
    · intro h
      cases h with
      | cons ha hc => exact ⟨_, ha, _, ih.2 hc, rfl⟩

/-- There is no combination just if there is nothing to choose from in some list. -/
theorem all_eq_nil_iff {ls : List (List α)} : all ls = [] ↔ [] ∈ ls := by
  induction ls with
  | nil => simp [all]
  | cons l ls ih => rw [all, List.flatMap_map_eq_nil, ih, List.mem_cons, eq_comm (a := l)]

/-! ## What is still to come -/

namespace Cursor

variable {is js : Cursor} {ls : List (List α)}

/-- Every position is in its list. -/
abbrev Within (is : Cursor) (ls : List (List α)) : Prop :=
  List.Forall₂ (fun i l => i < l.length) is ls

/-- The combinations from a cursor on: first those with the element at its first position. -/
def rest : Cursor → List (List α) → List (List α)
  | i :: is, l :: ls =>
    l[i]?.toList.flatMap (fun a => (rest is ls).map (a :: ·)) ++
      (l.drop (i + 1)).flatMap fun a => (all ls).map (a :: ·)
  | _, _ => [[]]

theorem rest_cons {i : Nat} {l : List α} (hi : i < l.length) (is : Cursor) (ls : List (List α)) :
    rest (i :: is) (l :: ls) = (rest is ls).map (l[i] :: ·) ++
      (l.drop (i + 1)).flatMap fun a => (all ls).map (a :: ·) := by
  rw [rest, List.getElem?_eq_getElem hi, Option.toList_some, List.flatMap_singleton]

theorem read_cons {i : Nat} {l : List α} (hi : i < l.length) (is : Cursor) (ls : List (List α)) :
    read (i :: is) (l :: ls) = l[i] :: read is ls := by
  simp only [read, List.zip_cons_cons, List.filterMap_cons, List.getElem?_eq_getElem hi]

theorem start_within (h : [] ∉ ls) : Within (start ls) ls := by
  induction ls with
  | nil => exact .nil
  | cons l ls ih =>
    rw [List.mem_cons, not_or] at h
    exact .cons (List.length_pos_iff.2 (Ne.symm h.1)) (ih h.2)

/-- At the start all combinations are still to come. -/
theorem rest_start (h : [] ∉ ls) : rest (start ls) ls = all ls := by
  induction ls with
  | nil => rfl
  | cons l ls ih =>
    rw [List.mem_cons, not_or] at h
    have hl : 0 < l.length := List.length_pos_iff.2 (Ne.symm h.1)
    show rest (0 :: start ls) (l :: ls) = _
    rw [rest_cons hl, ih h.2, all, ← List.flatMap_cons (f := fun a => (all ls).map (a :: ·)),
      ← List.drop_eq_getElem_cons hl, List.drop_zero]

theorem Within.nil_notMem (h : Within is ls) : [] ∉ ls := by
  induction h with
  | nil => exact List.not_mem_nil
  | @cons i l _ _ hi _ ih =>
    rw [List.mem_cons, not_or]
    refine ⟨?_, ih⟩
    rintro rfl
    exact Nat.not_lt_zero i hi

/-- What a move does: the cursor leaves out what it has read, or it was at the last combination and
is back at the start. -/
theorem Within.advance (h : Within is ls) :
    (∃ js, advance is ls = (true, js) ∧ Within js ls ∧ rest is ls = read is ls :: rest js ls) ∨
      (advance is ls = (false, start ls) ∧ rest is ls = [read is ls]) := by
  induction h with
  | nil => exact .inr ⟨rfl, rfl⟩
  | @cons i l is ls hi his ih =>
    rw [rest_cons hi, read_cons hi]
    rcases ih with ⟨js, hmove, hjs, hrest⟩ | ⟨hmove, hrest⟩
    · refine .inl ⟨i :: js, advance_cons_of_moved hmove i l, .cons hi hjs, ?_⟩
      rw [rest_cons hi, hrest, List.map_cons, List.cons_append]
    · rw [advance_cons_of_wrapped hmove, hrest, List.map_singleton, List.singleton_append]
      by_cases hnext : i + 1 < l.length
      · have hne := Within.nil_notMem his
        refine .inl ⟨(i + 1) :: start ls, if_pos hnext, .cons hnext (start_within hne), ?_⟩
        rw [rest_cons hnext, rest_start hne, List.drop_eq_getElem_cons hnext, List.flatMap_cons]
      · refine .inr ⟨if_neg hnext, ?_⟩
        rw [List.drop_eq_nil_of_le (Nat.le_of_not_lt hnext), List.flatMap_nil]

end Cursor

/-! ## Rounds -/

theorem round_eq (f : List α → m β) (ls : List (List α)) (is : Cursor) : round f ls is = do
    let b ← f (is.read ls)
    if (is.advance ls).1 then
      let (bs, js) ← round f ls (is.advance ls).2
      return (b :: bs, js)
    else return ([b], (is.advance ls).2) := by
  rw [round]
  congr 1
  funext b
  split <;> rename_i hmove <;> simp only [hmove] <;> rfl

section
variable [LawfulMonad m]

/-- A round goes through what is still to come, and leaves the cursor at the start. -/
theorem round_eq_mapM (f : List α → m β) {ls : List (List α)} {is : Cursor} (h : is.Within ls) :
    round f ls is = do return (← (is.rest ls).mapM f, Cursor.start ls) := by
  generalize hrest : is.rest ls = cs
  induction cs generalizing is with
  | nil =>
    rcases h.advance with ⟨js, -, -, hcons⟩ | ⟨-, hcons⟩ <;> cases hrest.symm.trans hcons
  | cons c cs ih =>
    rw [round_eq]
    rcases h.advance with ⟨js, hmove, hjs, hcons⟩ | ⟨hmove, hcons⟩
    · cases hrest.symm.trans hcons
      simp [hmove, ih hjs rfl]
    · cases hrest.symm.trans hcons
      simp [hmove]

/-- Each of some elements goes with every combination, in lexicographic order. -/
theorem rounds_eq_mapM (f : ρ → List α → m β) {ls : List (List α)} (h : [] ∉ ls) (rs : List ρ) :
    rounds f ls rs (Cursor.start ls) =
      (rs.flatMap fun r => (all ls).map (r, ·)).mapM fun c => f c.1 c.2 := by
  induction rs with
  | nil => rfl
  | cons r rs ih =>
    rw [rounds, round_eq_mapM (f r) (Cursor.start_within h), Cursor.rest_start h]
    simp [List.mapM_append, List.mapM_map, ih, Function.comp_def]

/-- If there is nothing to choose from, no round is needed. -/
theorem ite_rounds_eq_mapM (f : ρ → List α → m β) (ls : List (List α)) (rs : List ρ) :
    (if rs.isEmpty || ls.any (·.isEmpty) then pure [] else rounds f ls rs (Cursor.start ls)) =
      (rs.flatMap fun r => (all ls).map (r, ·)).mapM fun c => f c.1 c.2 := by
  have hempty : (rs.isEmpty || ls.any (·.isEmpty)) = true ↔ rs = [] ∨ [] ∈ ls := by
    simp [List.any_eq_true]
  split
  · rename_i h
    have hnil : (rs.flatMap fun r => (all ls).map (r, ·)) = [] := by
      rwa [List.flatMap_map_eq_nil, all_eq_nil_iff, ← hempty]
    rw [hnil, List.mapM_nil]
  · rename_i h
    rw [hempty, not_or] at h
    exact rounds_eq_mapM f h.2 rs

end

end Multimethod.Combination
