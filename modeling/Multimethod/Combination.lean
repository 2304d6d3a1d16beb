/-!
# Combinations

The ways to pick one element from each of some lists are gone through like the readings of an
odometer: a cursor holds a position in each list, of which the last moves fastest. The same cursor
serves one round after the other, as every round ends with it back at the start.
-/

namespace Multimethod.Combination

/-- A position in each of some lists. -/
abbrev Cursor := List Nat

namespace Cursor

variable {α : Type} {is js : Cursor} {ls : List (List α)}

/-- All positions at the start. -/
def start (ls : List (List α)) : Cursor := List.replicate ls.length 0

/-- The elements that the cursor is at. -/
def read (is : Cursor) (ls : List (List α)) : List α :=
  (is.zip ls).filterMap fun p => p.2[p.1]?

/-- Move the cursor, and say whether it has moved on. The last position moves first; one that comes
to the end of its list goes back to the start, and the one before it moves too. -/
def advance : Cursor → List (List α) → Bool × Cursor
  | i :: is, l :: ls =>
    let (moved, is) := advance is ls
    if moved then (true, i :: is)
    else if i + 1 < l.length then (true, (i + 1) :: is)
    else (false, 0 :: is)
  | is, _ => (false, is)

/-! ## How often a cursor moves on -/

/-- The number of readings of the cursor; an empty list has no more than one position. -/
def period : List (List α) → Nat
  | [] => 1
  | l :: ls => max 1 l.length * period ls

/-- How often the cursor may move on before all positions are back at the start. -/
def left : Cursor → List (List α) → Nat
  | i :: is, l :: ls => (l.length - (i + 1)) * period ls + left is ls
  | _, _ => 0

theorem period_pos (ls : List (List α)) : 0 < period ls := by
  induction ls with
  | nil => exact Nat.one_pos
  | cons l ls ih => exact Nat.mul_pos (by omega) ih

theorem advance_cons_of_moved (h : advance is ls = (true, js)) (i : Nat) (l : List α) :
    advance (i :: is) (l :: ls) = (true, i :: js) := by
  simp only [advance, h, if_true]

theorem advance_cons_of_wrapped (h : advance is ls = (false, js)) (i : Nat) (l : List α) :
    advance (i :: is) (l :: ls) =
      if i + 1 < l.length then (true, (i + 1) :: js) else (false, 0 :: js) := by
  simp only [advance, h, Bool.false_eq_true, if_false]

/-- A cursor that is back at the start has less than a period before it. -/
theorem left_lt_period (h : advance is ls = (false, js)) : left js ls < period ls := by
  induction ls generalizing is js with
  | nil =>
    rw [show left js [] = 0 by cases js <;> rfl]
    exact period_pos _
  | cons l ls ih =>
    cases is with
    | nil =>
      cases h
      exact period_pos _
    | cons i is =>
      obtain ⟨moved, ks, hks⟩ : ∃ moved ks, advance is ls = (moved, ks) := ⟨_, _, rfl⟩
      cases moved with
      | true =>
        rw [advance_cons_of_moved hks] at h
        cases h
      | false =>
        rw [advance_cons_of_wrapped hks] at h
        split at h
        · cases h
        · cases h
          have hlt := ih hks
          calc (l.length - (0 + 1)) * period ls + left ks ls
              < (l.length - (0 + 1) + 1) * period ls := by rw [Nat.succ_mul]; omega
            _ ≤ max 1 l.length * period ls := Nat.mul_le_mul_right _ (by omega)

theorem left_advance (h : advance is ls = (true, js)) : left js ls < left is ls := by
  induction ls generalizing is js with
  | nil => cases is <;> cases h
  | cons l ls ih =>
    cases is with
    | nil => cases h
    | cons i is =>
      obtain ⟨moved, ks, hks⟩ : ∃ moved ks, advance is ls = (moved, ks) := ⟨_, _, rfl⟩
      cases moved with
      | true =>
        rw [advance_cons_of_moved hks] at h
        cases h
        exact Nat.add_lt_add_left (ih hks) _
      | false =>
        rw [advance_cons_of_wrapped hks] at h
        split at h
        · cases h
          have hlt := left_lt_period hks
          have hsteps : l.length - (i + 1) = l.length - (i + 1 + 1) + 1 := by omega
          simp only [left]
          rw [hsteps, Nat.succ_mul]
          omega
        · cases h

end Cursor

variable {α β ρ : Type} {m : Type → Type} [Monad m]

/-- Run `f` on the combinations from a cursor on until it is back at the start. -/
def round (f : List α → m β) (ls : List (List α)) (is : Cursor) : m (List β × Cursor) := do
  let b ← f (is.read ls)
  match _h : is.advance ls with
  | (true, js) => do
    let (bs, js) ← round f ls js
    return (b :: bs, js)
  | (false, js) => return ([b], js)
termination_by is.left ls
decreasing_by exact Cursor.left_advance (by assumption)

/-- A round for each of some elements, all with one cursor. -/
def rounds (f : ρ → List α → m β) (ls : List (List α)) : List ρ → Cursor → m (List β)
  | [], _ => pure []
  | r :: rs, is => do
    let (bs, is) ← round (f r) ls is
    return bs ++ (← rounds f ls rs is)

end Multimethod.Combination
