import Multimethod.MethodTable

/-!
# Overload sets

A method is entered into the overload set of its name and owner, which is made before it is checked
that no other method of the set has the same restrictions. A set that is made and stays empty is
seen by no look-up (`MethodTable.overloads_opened`). If the method is left out, the set was there
(`MethodTable.opened_eq`), so the table is what it was (`MethodTable.enter_of_some`). Of several
definitions those that fail are reported, and the others are entered (`MethodTable.addAll_cons`).
-/

namespace Multimethod.MethodTable

variable {h : Hierarchy} {names : NameTable} {t : TypeTable} {ms : MethodTable}

/-! ## Adding a method -/

theorem get?_push (m : Method) (i : MethodId) :
    (ms.push m).get? i = if i.index = ms.size then some m else ms.get? i :=
  Array.getElem?_push

theorem overloads_push (m : Method) (n : Name) (o : MethodOwner) : (ms.push m).overloads n o =
    if n = m.definition.name ∧ o = m.owner then ms.overloads n o ++ [⟨ms.size⟩]
    else ms.overloads n o := by
  simp only [push, overloads, OverloadSets.of, Std.ExtTreeMap.getElem?_insert,
    Std.compare_eq_iff_eq]
  by_cases hn : m.definition.name = n
  · subst hn
    simp only [if_true, Option.getD_some, Std.ExtTreeMap.getElem?_insert, Std.compare_eq_iff_eq,
      MethodOwner.code_inj, true_and]
    by_cases ho : m.owner = o
    · subst ho
      simp
    · rw [if_neg ho, if_neg fun h => ho h.symm]
  · rw [if_neg hn, if_neg fun h => hn h.1.symm]

/-! ## Making a set -/

@[simp] theorem get?_opened (n : Name) (o : MethodOwner) (i : MethodId) :
    (ms.opened n o).get? i = ms.get? i := rfl

/-- A set that has just been made is empty, as one that is not there. -/
theorem overloads_opened (n n' : Name) (o o' : MethodOwner) :
    (ms.opened n o).overloads n' o' = ms.overloads n' o' := by
  simp only [opened, overloads, OverloadSets.of, Std.ExtTreeMap.getElem?_insert,
    Std.compare_eq_iff_eq]
  by_cases hn : n = n'
  · subst hn
    rw [if_pos rfl, Option.getD_some, Std.ExtTreeMap.getElem?_insertIfNew]
    split
    · rename_i hnew
      rw [Std.ExtTreeMap.getElem?_eq_none (Std.compare_eq_iff_eq.1 hnew.1 ▸ hnew.2)]
      rfl
    · rfl
  · rw [if_neg hn]

/-- A set that has a method was there. -/
theorem opened_eq {n : Name} {o : MethodOwner} (h : ms.overloads n o ≠ []) : ms.opened n o = ms := by
  have hnamed : ms.named.insert n ((ms.named[n]?.getD ∅).insertIfNew o.code []) = ms.named := by
    cases hs : ms.named[n]? with
    | none => exact absurd (by simp [overloads, hs, OverloadSets.of]) h
    | some s =>
      have hmem : o.code ∈ s := Decidable.byContradiction fun hnot =>
        h (by simp [overloads, hs, OverloadSets.of, Std.ExtTreeMap.getElem?_eq_none hnot])
      have hsame : s.insertIfNew o.code [] = s := by
        ext1 k
        rw [Std.ExtTreeMap.getElem?_insertIfNew, if_neg fun hnew => hnew.2 hmem]
      rw [Option.getD_some, hsame]
      ext1 k
      rw [Std.ExtTreeMap.getElem?_insert]
      split
      · rename_i hk
        rw [← Std.compare_eq_iff_eq.1 hk, hs]
      · rfl
  rw [opened, hnamed]

/-- Whether its set was made just before does not matter to a method that is added. -/
theorem push_opened (m : Method) : (ms.opened m.definition.name m.owner).push m = ms.push m := by
  have hnamed : ((ms.opened m.definition.name m.owner).push m).named = (ms.push m).named := by
    simp only [push, overloads_opened]
    ext1 k
    simp only [opened, Std.ExtTreeMap.getElem?_insert, Std.compare_eq_iff_eq]
    split
    · simp only [if_true, Option.getD_some, Option.some_inj]
      ext1 j
      simp only [Std.ExtTreeMap.getElem?_insert, Std.ExtTreeMap.getElem?_insertIfNew,
        Std.compare_eq_iff_eq]
      split
      · rfl
      · rename_i hj
        rw [if_neg fun hnew => hj hnew.1]
    · rfl
  exact congrArg (MethodTable.mk (ms.methods.push m)) hnamed

/-! ## Entering a method -/

theorem ne_of_duplicate? {n : Name} {o : MethodOwner} {rs : List (Option TypeId)} {m : MethodId}
    (hnone : ms.duplicate? n o rs = none) (hm : m ∈ ms.overloads n o) {md : Method}
    (hmd : ms.get? m = some md) : md.restrictions ≠ rs := by
  have := List.findSome?_eq_none_iff.1 hnone m hm
  rw [hmd, Option.filter_eq_none_iff] at this
  simpa using this md rfl

theorem duplicate?_opened (n n' : Name) (o o' : MethodOwner) (rs : List (Option TypeId)) :
    (ms.opened n o).duplicate? n' o' rs = ms.duplicate? n' o' rs := by
  simp only [duplicate?, overloads_opened, get?_opened]

variable (h names) in
/-- A method that repeats the restrictions of another one is left out, and nothing has changed: the
set of the other one was there. -/
theorem enter_of_some {m previous : Method}
    (hdup : ms.duplicate? m.definition.name m.owner m.restrictions = some previous) :
    (enter h names m).run ms t = ((.error ⟨.duplicateDefinition (signatureOf h t names m)
      previous.definition.span, m.definition.span⟩, ms), t) := by
  have hne : ms.overloads m.definition.name m.owner ≠ [] := fun hnil => by
    rw [duplicate?, hnil] at hdup
    cases hdup
  simp only [enter, StateT.run_bind, StateT.run_modify, StateT.run_get, opened_eq hne, hdup,
    pure_bind]
  rfl

variable (h names) in
theorem enter_of_none {m : Method}
    (hdup : ms.duplicate? m.definition.name m.owner m.restrictions = none) :
    (enter h names m).run ms t = ((.ok ⟨ms.size⟩, ms.push m), t) := by
  simp only [enter, StateT.run_bind, StateT.run_modify, StateT.run_get, duplicate?_opened, hdup,
    pure_bind, push_opened]
  rfl

/-! ## Registering definitions -/

/-- How registering a definition failed, if it did. -/
def complaint : Except TypeError MethodId → Option TypeError
  | .ok _ => none
  | .error e => some e

variable (h names) in
/-- Definitions are registered one after the other, and those that fail are reported. -/
theorem addAll_cons (d : Definition) (ds : List Definition) : addAll h names (d :: ds) = do
    let r ← add h names d
    return (complaint r).toList ++ (← addAll h names ds) := by
  simp only [addAll]
  congr 1
  funext r
  cases r with
  | ok m => exact (bind_pure _).symm
  | error e => rfl

end Multimethod.MethodTable
