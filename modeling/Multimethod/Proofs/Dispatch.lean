import Mathlib.Tactic
import Multimethod.Specialization

/-!
# Rows of dispatch tables

What a look-up finds after rows were added, and after two tables were merged.
-/

namespace Multimethod

namespace Catalog

variable {α : Type} {code : α → List Nat}

/-- What is found under a code after an entry was put in. -/
theorem lookup_put (c : Catalog α code) (a : α) (k : List Nat) :
    ((c.put a).find? k).bind (c.put a).get? =
      if k = code a then some a else (c.find? k).bind c.get? := by
  have found {d : Catalog α code} {i : Nat} {b : α} (hb : d.get? i = some b) :
      (d.find? (code b)).bind d.get? = some b := by
    rw [find?_eq_some.2 (by rw [hb]; rfl)]
    exact hb
  have same {d : Catalog α code} {k : List Nat} {b : α}
      (h : (d.find? k).bind d.get? = some b) : code b = k := by
    obtain ⟨i, hi, hb⟩ := Option.bind_eq_some_iff.1 h
    have := find?_eq_some.1 hi
    rw [hb] at this
    exact Option.some.inj this
  have hput : ∃ i, (c.put a).get? i = some a ∧
      (∀ j, j ≠ i → (c.put a).get? j = c.get? j) ∧ ∀ b, c.get? i = some b → code b = code a := by
    unfold put
    split
    · rename_i i hi
      have ha := find?_eq_some.1 hi
      obtain ⟨b, hb, hab⟩ := Option.map_eq_some_iff.1 ha
      refine ⟨i, ?_, fun j hj => ?_, fun d hd => ?_⟩
      · have hlt : i < c.entries.size := (Array.getElem?_eq_some_iff.1 hb).1
        simp [get?, hlt]
      · simp [get?, Ne.symm hj]
      · cases hb.symm.trans hd
        exact hab
    · refine ⟨c.size, by simp [get?, push, size], fun j hj => ?_, fun b hb => ?_⟩
      · simp only [get?, push, Array.getElem?_push]
        exact if_neg hj
      · simp [get?, size] at hb
  obtain ⟨i, hi, hne, hold⟩ := hput
  split
  · rename_i hk
    rw [hk, found hi]
  · rename_i hk
    refine Option.ext fun b => ?_
    constructor
    · intro h
      obtain ⟨j, -, hb⟩ := Option.bind_eq_some_iff.1 h
      have hji : j ≠ i := fun h' => by
        rw [h', hi] at hb
        cases hb
        exact hk (same h).symm
      rw [hne j hji] at hb
      rw [← same h, found hb]
    · intro h
      obtain ⟨j, -, hb⟩ := Option.bind_eq_some_iff.1 h
      have hji : j ≠ i := fun h' => hk (by rw [← same h, hold b (h' ▸ hb)])
      rw [← hne j hji] at hb
      rw [← same h, found hb]

end Catalog

/-- The types that a row is for. -/
def Row.types (row : Row) : Option TypeId × List TypeId := (row.receiver, row.args)

namespace DispatchTable

variable {t u : DispatchTable} {r : Option TypeId} {as : List TypeId} {callee : Callee}

theorem find?_empty : DispatchTable.empty.find? r as = none := rfl

theorem find?_insert (row : Row) : (t.insert row).find? r as =
    if r = row.receiver ∧ as = row.args then some row.target else t.find? r as := by
  simp only [find?, insert, Catalog.lookup_put, callCode_inj]
  split <;> rfl

theorem mem_toList {row : Row} : row ∈ t.toList ↔
    t.find? row.receiver row.args = some row.target := by
  simp only [toList, Array.mem_toList_iff, Array.mem_iff_getElem?, find?,
    Option.map_eq_some_iff, Option.bind_eq_some_iff, Catalog.find?_eq_some, callCode_inj]
  constructor
  · rintro ⟨i, hi⟩
    exact ⟨row, ⟨i, ⟨row, hi, rfl, rfl⟩, hi⟩, rfl⟩
  · rintro ⟨row', ⟨i, ⟨row'', h, hr, ha⟩, hi⟩, ht⟩
    cases h.symm.trans hi
    obtain ⟨_, _, _⟩ := row'
    obtain ⟨_, _, _⟩ := row
    simp only at hr ha ht
    subst hr ha ht
    exact ⟨i, hi⟩

/-- No two rows are for the same types. -/
theorem pairwise_toList (t : DispatchTable) :
    t.toList.Pairwise fun row row' => ¬ (row.receiver = row'.receiver ∧ row.args = row'.args) := by
  refine List.pairwise_iff_getElem.2 fun i j hi hj hij h => ?_
  have found (k : Nat) (hk : k < t.toList.length) :
      t.rows.find? (callCode t.toList[k].receiver t.toList[k].args) = some k := by
    refine Catalog.find?_eq_some.2 ?_
    rw [Catalog.get?, ← Array.getElem?_toList]
    exact congrArg _ (List.getElem?_eq_getElem hk)
  have hcode := callCode_inj.2 h
  have := (found i hi).symm.trans ((congrArg t.rows.find? hcode).trans (found j hj))
  exact Nat.ne_of_lt hij (Option.some.inj this)

/-- The last row for some types is the one that is found. -/
theorem find?_foldl_insert (rows : List Row) (t : DispatchTable) :
    (rows.foldl insert t).find? r as =
      ((rows.reverse.find? (·.types = (r, as))).map (·.target)).or (t.find? r as) := by
  induction rows generalizing t with
  | nil => rfl
  | cons row rows ih =>
    rw [List.foldl_cons, ih, find?_insert, List.reverse_cons, List.find?_append]
    by_cases hrow : r = row.receiver ∧ as = row.args
    · obtain ⟨rfl, rfl⟩ := hrow
      cases rows.reverse.find? (·.types = row.types) <;> simp [Row.types]
    · have hne : row.types ≠ (r, as) := fun h =>
        hrow ⟨(congrArg Prod.fst h).symm, (congrArg Prod.snd h).symm⟩
      simp [hrow, hne]

/-- A row is found in the list of the rows as it is found in the table. -/
theorem find?_eq_find?_reverse : t.find? r as =
    (t.toList.reverse.find? (·.types = (r, as))).map (·.target) := by
  apply Option.ext
  intro callee
  simp only [Option.map_eq_some_iff]
  constructor
  · intro h
    have hmem : (⟨r, as, callee⟩ : Row) ∈ t.toList := mem_toList.2 h
    cases hf : t.toList.reverse.find? (·.types = (r, as)) with
    | none => exact absurd (List.find?_eq_none.1 hf _ (List.mem_reverse.2 hmem)) (by simp [Row.types])
    | some row =>
      obtain ⟨rfl, rfl⟩ : row.receiver = r ∧ row.args = as := by
        simpa [Row.types] using List.find?_some hf
      have hfound := mem_toList.1 (List.mem_reverse.1 (List.mem_of_find?_eq_some hf))
      rw [h] at hfound
      exact ⟨row, rfl, (Option.some.inj hfound).symm⟩
  · rintro ⟨row, hf, rfl⟩
    obtain ⟨rfl, rfl⟩ : row.receiver = r ∧ row.args = as := by
      simpa [Row.types] using List.find?_some hf
    exact mem_toList.1 (List.mem_reverse.1 (List.mem_of_find?_eq_some hf))

/-- A merged table finds what the second one finds, and else what the first one finds. -/
theorem find?_merge_eq : (t.merge u).find? r as = (u.find? r as).or (t.find? r as) := by
  rw [merge, ← Array.foldl_toList, find?_eq_find?_reverse (t := u)]
  exact find?_foldl_insert _ t

/-- A row of a merged table comes from one of the two. -/
theorem find?_merge (h : (t.merge u).find? r as = some callee) :
    u.find? r as = some callee ∨ t.find? r as = some callee := by
  rw [find?_merge_eq, Option.or_eq_some_iff] at h
  exact h.imp_right And.right

/-- A merged table has a row wherever one of the two has. -/
theorem exists_find?_merge
    (h : (∃ callee, u.find? r as = some callee) ∨ ∃ callee, t.find? r as = some callee) :
    ∃ callee, (t.merge u).find? r as = some callee := by
  simp only [← Option.isSome_iff_exists] at h ⊢
  rw [find?_merge_eq, Option.isSome_or, Bool.or_eq_true]
  exact h

end DispatchTable

namespace Body

variable {b : Body} {e e' : ExprId} {t : DispatchTable}

theorem dispatchAt_addRows :
    (b.addRows e t).dispatchAt e' = if e' = e then (b.dispatchAt e).merge t else b.dispatchAt e' := by
  simp only [addRows, dispatchAt, Std.ExtTreeMap.getElem?_insert, Std.compare_eq_iff_eq]
  by_cases h : e' = e
  · simp [h]
  · rw [if_neg fun h' => h h'.symm, if_neg h]

variable {r : Option TypeId} {as : List TypeId} {callee : Callee}

/-- A row that is there once rows were added was there before or is one of them. -/
theorem find?_addRows (h : ((b.addRows e t).dispatchAt e').find? r as = some callee) :
    (b.dispatchAt e').find? r as = some callee ∨ e' = e ∧ t.find? r as = some callee := by
  rw [dispatchAt_addRows] at h
  split at h
  · rename_i he
    exact (DispatchTable.find?_merge h).elim (fun h => .inr ⟨he, h⟩) fun h => .inl (he ▸ h)
  · exact .inl h

/-- For types that had a row, or for which one is added, there is a row. -/
theorem exists_find?_addRows (h : (b.dispatchAt e').find? r as = some callee ∨
      e' = e ∧ t.find? r as = some callee) :
    ∃ callee', ((b.addRows e t).dispatchAt e').find? r as = some callee' := by
  rw [dispatchAt_addRows]
  split
  · rename_i he
    subst he
    exact DispatchTable.exists_find?_merge (h.symm.imp (fun h => ⟨_, h.2⟩) fun h => ⟨_, h⟩)
  · rename_i he
    exact ⟨callee, h.resolve_right fun h => he h.1⟩

end Body

end Multimethod
