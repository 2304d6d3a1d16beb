import Mathlib.Tactic
import Multimethod.Specialization

/-!
# Tables of specializations

What a look-up finds after a specialization was demanded, changed or frozen.
-/

namespace Multimethod

namespace Specialization

variable {i : Specialization}

theorem stage_freeze (i : Specialization) : i.freeze.stage = .frozen := by
  unfold freeze
  split
  · assumption
  · rfl

/-- A specialization that never returned a value returns `nil` once it is frozen. -/
theorem returnType_freeze (h : i.stage = .frozen → i.returnType ≠ .never) :
    i.freeze.returnType ≠ .never := by
  unfold freeze
  split
  · rename_i hi
    exact h hi
  · show (if _ then _ else _) ≠ _
    split
    · decide
    · assumption

end Specialization

namespace Specializations

variable {ss : Specializations} {s s' : SpecId} {key : SpecKey} {i : Specialization}

theorem find?_eq_some : ss.find? key = some s ↔ ∃ i, ss.get? s = some i ∧ i.key = key := by
  simp only [find?, Option.map_eq_some_iff, Catalog.find?_eq_some, get?, SpecKey.code_inj]
  constructor
  · rintro ⟨j, ⟨i, hi, hk⟩, rfl⟩
    exact ⟨i, hi, hk⟩
  · rintro ⟨i, hi, hk⟩
    exact ⟨s.index, ⟨i, hi, hk⟩, rfl⟩

/-- There is one specialization for each key. -/
theorem eq_of_key {i' : Specialization} (h : ss.get? s = some i) (h' : ss.get? s' = some i')
    (hk : i.key = i'.key) : s = s' :=
  Option.some.inj ((find?_eq_some.2 ⟨i, h, hk⟩).symm.trans (find?_eq_some.2 ⟨i', h', rfl⟩))

theorem lt_size (h : ss.get? s = some i) : s.index < ss.size := by
  simp only [get?, Catalog.get?] at h
  exact (Array.getElem?_eq_some_iff.1 h).1

theorem exists_get? (h : s.index < ss.size) : ∃ i, ss.get? s = some i :=
  ⟨_, Array.getElem?_eq_getElem h⟩

theorem get?_modify (f : Specialization → Specialization) (h : ∀ i, (f i).key = i.key) :
    (ss.modify s f h).get? s' = if s' = s then (ss.get? s).map f else ss.get? s' := by
  simp only [modify, get?, Catalog.modify, Catalog.get?, Array.getElem?_modify]
  by_cases hs : s' = s
  · simp [hs]
  · rw [if_neg hs, if_neg fun h => hs (Handle.ext_index h.symm)]

theorem get?_freezeAll : ss.freezeAll.get? s = (ss.get? s).map Specialization.freeze := by
  simp [freezeAll, get?, Catalog.map, Catalog.get?]

theorem demand_of_find? (h : ss.find? key = some s) : ss.demand key = (s, false, ss) := by
  unfold demand
  simp only [find?, Option.map_eq_some_iff] at h
  obtain ⟨i, hi, rfl⟩ := h
  split
  · simp_all
  · simp_all

/-- A key that is demanded for the first time is put at the end. -/
theorem demand_of_find?_none (h : ss.find? key = none) : ∃ ss',
    ss.demand key = (⟨ss.size⟩, true, ss') ∧ ss'.size = ss.size + 1 ∧
      ∀ s', ss'.get? s' = if s' = ⟨ss.size⟩ then some { key } else ss.get? s' := by
  have hn : ss.entries.find? key.code = none := by simpa [find?] using h
  refine ⟨⟨ss.entries.push { key } hn⟩, ?_, ?_, fun s' => ?_⟩
  · unfold demand
    split
    · simp_all
    · rfl
  · simp [size, Catalog.size, Catalog.push]
  · have hs : s' = ⟨ss.size⟩ ↔ s'.index = ss.entries.entries.size :=
      ⟨fun h => by rw [h]; rfl, fun h => Handle.ext_index h⟩
    simp only [hs]
    exact Array.getElem?_push

end Specializations

end Multimethod
