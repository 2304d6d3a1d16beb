import Mathlib.Tactic
import Multimethod.Name

/-!
# Names of texts

A name keeps its text when more texts are interned, and two texts have two names.
-/

namespace Multimethod

namespace NameTable

variable {t u : NameTable} {s s' : String} {n n' : Name}

/-- The text `s` has the name `n`. -/
def Names (t : NameTable) (s : String) (n : Name) : Prop := t.texts[n.index]? = some s

/-- Every text keeps its name. -/
instance : LE NameTable := ⟨fun t u => ∀ s n, t.Names s n → u.Names s n⟩

theorem le_refl (t : NameTable) : t ≤ t := fun _ _ h => h

theorem le_trans {v : NameTable} (h : t ≤ u) (h' : u ≤ v) : t ≤ v := fun s n hn => h' s n (h s n hn)

theorem Names.text_unique (h : t.Names s n) (h' : t.Names s' n) : s = s' :=
  Option.some.inj (h.symm.trans h')

/-- The name of a text is the first one that it has. -/
theorem find?_iff : t.find? s = some n ↔
    t.Names s n ∧ ∀ m : Name, m.index < n.index → ¬ t.Names s m := by
  simp only [find?, Array.idxOf?_eq_map_finIdxOf?_val, Option.map_map, Option.map_eq_some_iff]
  constructor
  · rintro ⟨i, hi, rfl⟩
    obtain ⟨hs, hfirst⟩ := Array.finIdxOf?_eq_some_iff.1 hi
    refine ⟨Array.getElem?_eq_some_iff.2 ⟨i.2, hs⟩, fun m hm hn => ?_⟩
    exact hfirst ⟨m.index, hm.trans i.2⟩ hm (Array.getElem?_eq_some_iff.1 hn).2
  · rintro ⟨hn, hfirst⟩
    obtain ⟨hlt, hs⟩ := Array.getElem?_eq_some_iff.1 hn
    refine ⟨⟨n.index, hlt⟩, Array.finIdxOf?_eq_some_iff.2 ⟨hs, fun j hj hjs => ?_⟩, rfl⟩
    exact hfirst ⟨j⟩ hj (Array.getElem?_eq_some_iff.2 ⟨j.2, hjs⟩)

theorem find?_eq_some (h : t.find? s = some n) : t.Names s n := (find?_iff.1 h).1

/-- The name of a text stays the first one. -/
theorem find?_mono (h : t.find? s = some n) (hle : t ≤ u) : u.find? s = some n := by
  obtain ⟨hn, hfirst⟩ := find?_iff.1 h
  refine find?_iff.2 ⟨hle s n hn, fun m hm hms => hfirst m hm ?_⟩
  -- Whatever text the earlier name has, it keeps.
  have hlt : m.index < t.texts.size := hm.trans (Array.getElem?_eq_some_iff.1 hn).1
  have hmt : t.Names t.texts[m.index] m := Array.getElem?_eq_getElem hlt
  rwa [(hle _ m hmt).text_unique hms] at hmt

theorem intern_names (s : String) (t : NameTable) :
    t ≤ (intern s t).2 ∧ (intern s t).2.Names s (intern s t).1 := by
  unfold intern
  cases hf : t.find? s with
  | some n => exact ⟨le_refl t, find?_eq_some hf⟩
  | none =>
    refine ⟨fun s' n' hn => ?_, by simp [Names, size]⟩
    have hlt := (Array.getElem?_eq_some_iff.1 hn).1
    simp only [Names, Array.getElem?_push, if_neg (Nat.ne_of_lt hlt)]
    exact hn

theorem find?_intern (s : String) (t : NameTable) :
    (intern s t).2.find? s = some (intern s t).1 := by
  unfold intern
  cases hf : t.find? s with
  | some n => exact hf
  | none =>
    refine find?_iff.2 ⟨by simp [Names, size], fun m hm hms => ?_⟩
    -- An earlier name of the text would have been found.
    have hms : t.Names s m := by
      simpa [Names, Array.getElem?_push, Nat.ne_of_lt (show m.index < t.texts.size from hm)] using hms
    have hmem := Array.mem_of_getElem? hms
    simp only [find?, Option.map_eq_none_iff, Array.idxOf?_eq_none_iff] at hf
    exact hf hmem

theorem names_text (h : t.text n ≠ "") : t.Names (t.text n) n := by
  rw [text, Array.getD_eq_getD_getElem?] at h ⊢
  cases hn : t.texts[n.index]? with
  | none => simp [hn] at h
  | some s => simp [Names, hn]

/-- A table that is reached by giving names to texts. -/
inductive Reachable : NameTable → Prop where
  | empty : Reachable {}
  | intern {t : NameTable} (s : String) (h : Reachable t) : Reachable (intern s t).2

/-- A name of the table after a text has been given one. -/
theorem names_intern (hn : (intern s t).2.Names s' n) :
    t.Names s' n ∨ t.find? s = none ∧ s' = s ∧ n = ⟨t.size⟩ := by
  unfold intern at hn
  cases hf : t.find? s with
  | some m =>
    rw [hf] at hn
    exact .inl hn
  | none =>
    rw [hf, Names, Array.getElem?_push] at hn
    split at hn
    · rename_i hsize
      exact .inr ⟨rfl, (Option.some.inj hn).symm, Handle.ext_index hsize⟩
    · exact .inl hn

/-- No text is given two names. -/
theorem Reachable.name_unique (h : t.Reachable) (hn : t.Names s n) (hn' : t.Names s n') :
    n = n' := by
  induction h with
  | empty =>
    have zero {n : Name} (hn : NameTable.Names {} s n) : n.index = 0 := by
      have := (Array.getElem?_eq_some_iff.1 hn).1
      simpa using this
    exact Handle.ext_index ((zero hn).trans (zero hn').symm)
  | @intern t s' _ ih =>
    have fresh {n : Name} (hf : t.find? s' = none) (hn : t.Names s' n) : False := by
      simp only [find?, Option.map_eq_none_iff, Array.idxOf?_eq_none_iff] at hf
      exact hf (Array.mem_of_getElem? hn)
    rcases names_intern hn with hn | ⟨hf, rfl, rfl⟩ <;>
      rcases names_intern hn' with hn' | ⟨hf', hs, rfl⟩
    · exact ih hn hn'
    · exact (fresh hf' (hs ▸ hn)).elim
    · exact (fresh hf hn').elim
    · rfl

end NameTable

namespace CoreNames

open NameTable

/-- The names of the classes and methods that the language refers to. -/
structure Fits (c : CoreNames) (t : NameTable) : Prop where
  new : t.Names "new" c.new
  allocate : t.Names "allocate" c.allocate
  initializer : t.Names "initialize" c.initializer
  object : t.Names "Object" c.object
  nil : t.Names "Nil" c.nil
  bool : t.Names "Bool" c.bool
  int : t.Names "Int" c.int
  float : t.Names "Float" c.float

theorem intern_fits (t : NameTable) :
    t ≤ (CoreNames.intern t).2 ∧ (CoreNames.intern t).1.Fits (CoreNames.intern t).2 := by
  obtain ⟨l₁, n₁⟩ := intern_names "new" t
  obtain ⟨l₂, n₂⟩ := intern_names "allocate" (NameTable.intern "new" t).2
  obtain ⟨l₃, n₃⟩ := intern_names "initialize"
    (NameTable.intern "allocate" (NameTable.intern "new" t).2).2
  set t₃ := (NameTable.intern "initialize"
    (NameTable.intern "allocate" (NameTable.intern "new" t).2).2).2
  obtain ⟨l₄, n₄⟩ := intern_names "Object" t₃
  set t₄ := (NameTable.intern "Object" t₃).2
  obtain ⟨l₅, n₅⟩ := intern_names "Nil" t₄
  set t₅ := (NameTable.intern "Nil" t₄).2
  obtain ⟨l₆, n₆⟩ := intern_names "Bool" t₅
  set t₆ := (NameTable.intern "Bool" t₅).2
  obtain ⟨l₇, n₇⟩ := intern_names "Int" t₆
  set t₇ := (NameTable.intern "Int" t₆).2
  obtain ⟨l₈, n₈⟩ := intern_names "Float" t₇
  have l₆₈ := le_trans l₇ l₈
  have l₅₈ := le_trans l₆ l₆₈
  have l₄₈ := le_trans l₅ l₅₈
  have l₃₈ := le_trans l₄ l₄₈
  exact ⟨le_trans l₁ (le_trans l₂ (le_trans l₃ l₃₈)), l₃₈ _ _ (l₃ _ _ (l₂ _ _ n₁)),
    l₃₈ _ _ (l₃ _ _ n₂), l₃₈ _ _ n₃, l₄₈ _ _ n₄, l₅₈ _ _ n₅, l₆₈ _ _ n₆, l₈ _ _ n₇, n₈⟩

/-- The names of the classes of numbers are the first ones that their texts have. -/
theorem find?_intern (t : NameTable) :
    (CoreNames.intern t).2.find? "Int" = some (CoreNames.intern t).1.int ∧
      (CoreNames.intern t).2.find? "Float" = some (CoreNames.intern t).1.float :=
  ⟨find?_mono (NameTable.find?_intern "Int" _) (intern_names "Float" _).1,
    NameTable.find?_intern "Float" _⟩

end CoreNames

end Multimethod
