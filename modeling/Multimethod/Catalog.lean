import Std.Data.ExtTreeMap

/-!
# Catalogs

A catalog is an array of entries that only grows, in which no two entries have the same code, and
which finds an entry by its code. What it finds is determined by the entries (`find?_eq_some`), and
the entries determine the catalog (`ext_entries`).
-/

namespace Multimethod

/-- Entries told apart by a code, in the order in which they came in. -/
structure Catalog (α : Type) (code : α → List Nat) where
  entries : Array α
  positions : Std.ExtTreeMap (List Nat) Nat compare
  positions_iff : ∀ k i, positions[k]? = some i ↔ entries[i]?.map code = some k

namespace Catalog

variable {α : Type} {code : α → List Nat}

def empty : Catalog α code := ⟨#[], ∅, by simp⟩

instance : EmptyCollection (Catalog α code) := ⟨empty⟩

instance : Inhabited (Catalog α code) := ⟨empty⟩

def size (c : Catalog α code) : Nat := c.entries.size

def get? (c : Catalog α code) (i : Nat) : Option α := c.entries[i]?

/-- The position of the entry with a given code. -/
def find? (c : Catalog α code) (k : List Nat) : Option Nat := c.positions[k]?

theorem find?_eq_some {c : Catalog α code} {k : List Nat} {i : Nat} :
    c.find? k = some i ↔ (c.get? i).map code = some k := c.positions_iff k i

theorem find?_eq_none {c : Catalog α code} {k : List Nat} :
    c.find? k = none ↔ ∀ a ∈ c.entries, code a ≠ k := by
  rw [Option.eq_none_iff_forall_ne_some]
  simp only [ne_eq, find?_eq_some, get?, Array.mem_iff_getElem?, Option.map_eq_some_iff]
  exact ⟨fun h a ⟨i, hi⟩ hk => h i ⟨a, hi, hk⟩, fun h i ⟨a, hi, hk⟩ => h a ⟨i, hi⟩ hk⟩

/-- Add an entry with a new code at the end. -/
def push (c : Catalog α code) (a : α) (h : c.find? (code a) = none) : Catalog α code :=
  let n := c.size
  { entries := c.entries.push a
    positions := c.positions.insert (code a) n
    positions_iff := fun k i => by
      have hn : ∀ b ∈ c.entries, code b ≠ code a := find?_eq_none.1 h
      have hnone : c.entries[i]?.map code ≠ some (code a) := fun h => by
        obtain ⟨b, hb, hc⟩ := Option.map_eq_some_iff.1 h
        exact hn b (Array.mem_of_getElem? hb) hc
      simp only [n, Std.ExtTreeMap.getElem?_insert, Std.compare_eq_iff_eq, Array.getElem?_push]
      by_cases hi : i = c.entries.size
      · subst hi
        have hend := c.positions_iff k c.entries.size
        rw [Array.getElem?_size] at hend
        by_cases hk : code a = k <;> simp [hk, hend, size]
      · by_cases hk : code a = k
        · subst hk
          simpa [hi, size, eq_comm] using hnone
        · simp only [hk, hi, if_false, c.positions_iff k i] }

/-- Change the entry at a position, but not its code. -/
def modify (c : Catalog α code) (i : Nat) (f : α → α)
    (h : ∀ a, code (f a) = code a := by intro _; rfl) : Catalog α code where
  entries := c.entries.modify i f
  positions := c.positions
  positions_iff k j := by
    rw [c.positions_iff, Array.getElem?_modify]
    split <;> simp [Function.comp_def, h]

/-- Change all entries, but not their codes. -/
def map (c : Catalog α code) (f : α → α) (h : ∀ a, code (f a) = code a := by intro _; rfl) :
    Catalog α code where
  entries := c.entries.map f
  positions := c.positions
  positions_iff k j := by simp [c.positions_iff, Function.comp_def, h]

/-- Put an entry in the place of the one with its code, or else at the end. -/
def put (c : Catalog α code) (a : α) : Catalog α code :=
  match h : c.find? (code a) with
  | some i =>
    { entries := c.entries.setIfInBounds i a
      positions := c.positions
      positions_iff := fun k j => by
        have ha := find?_eq_some.1 h
        rw [c.positions_iff, Array.getElem?_setIfInBounds]
        split
        · rename_i hij
          subst hij
          rw [show c.entries[i]?.map code = some (code a) from ha]
          split
          · rfl
          · rename_i hlt
            simp [get?, Array.getElem?_eq_none (Nat.le_of_not_lt hlt)] at ha
        · rfl }
  | none => c.push a h

theorem ext_entries {c d : Catalog α code} (h : c.entries = d.entries) : c = d := by
  obtain ⟨l, p, hp⟩ := c
  obtain ⟨l', q, hq⟩ := d
  obtain rfl : l = l' := h
  have : p = q := Std.ExtTreeMap.ext_getElem? fun k => Option.ext fun i => by rw [hp, hq]
  subst this; rfl

end Catalog

end Multimethod
