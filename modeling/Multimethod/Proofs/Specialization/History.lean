import Multimethod.Proofs.Specialization

/-!
# What becomes of specializations

A table of specializations is changed by demanding keys, by freezing, and by what becomes known of
specializations that are not frozen. However these steps follow each other, the specializations are
numbered in the order in which their keys were demanded first, and one that is frozen stays as it
is (`steps_keep`).
-/

namespace Multimethod

/-- A step in which a table of specializations changes. -/
inductive Specializations.Op where
  | demand (key : SpecKey)
  | freeze (s : SpecId)
  | freezeAll
  /-- Something becomes known of a specialization, unless it is frozen. -/
  | learn (s : SpecId) (f : Specialization → Specialization) (key_eq : ∀ i, (f i).key = i.key)
    (ne_frozen : ∀ i, i.stage ≠ .frozen → (f i).stage ≠ .frozen)

namespace Specialization

variable {f : Specialization → Specialization} {i : Specialization}

/-- What becomes of a specialization if `f` becomes known of it. -/
def learn (f : Specialization → Specialization) (i : Specialization) : Specialization :=
  if i.stage = .frozen then i else f i

theorem key_learn (hf : ∀ i, (f i).key = i.key) (i : Specialization) : (i.learn f).key = i.key := by
  unfold learn
  split
  · rfl
  · exact hf i

theorem freeze_of_frozen (h : i.stage = .frozen) : i.freeze = i := if_pos h

end Specialization

namespace Specializations

variable {ss : Specializations} {s : SpecId} {i : Specialization} {key : SpecKey}
  {keys : List SpecKey}

namespace Op

def run (ss : Specializations) : Op → Specializations
  | demand key => (ss.demand key).2.2
  | freeze s => ss.freeze s
  | freezeAll => ss.freezeAll
  | learn s f key_eq _ => ss.modify s (Specialization.learn f) (Specialization.key_learn key_eq)

/-- The key that is demanded. -/
def key? : Op → Option SpecKey
  | demand key => some key
  | freeze _ | freezeAll | learn .. => none

/-- What becomes of a specialization that is there. -/
def effect (s : SpecId) : Op → Specialization → Specialization
  | demand _ => id
  | freeze s' => if s = s' then Specialization.freeze else id
  | freezeAll => Specialization.freeze
  | learn s' f _ _ => if s = s' then Specialization.learn f else id

theorem key_effect (o : Op) : (o.effect s i).key = i.key := by
  unfold effect
  split
  · rfl
  · split
    · exact i.key_freeze
    · rfl
  · exact i.key_freeze
  · rename_i hf _
    split
    · exact Specialization.key_learn hf i
    · rfl

/-- One that is frozen is not touched. -/
theorem effect_of_frozen (o : Op) (h : i.stage = .frozen) : o.effect s i = i := by
  unfold effect
  split
  · rfl
  · split
    · exact Specialization.freeze_of_frozen h
    · rfl
  · exact Specialization.freeze_of_frozen h
  · split
    · exact if_pos h
    · rfl

/-- One is frozen only by being frozen. -/
theorem effect_frozen (o : Op) (h : (o.effect s i).stage = .frozen) : o.effect s i = i.freeze := by
  by_cases hi : i.stage = .frozen
  · rw [o.effect_of_frozen hi, Specialization.freeze_of_frozen hi]
  · unfold effect at h ⊢
    split at h
    · exact absurd h hi
    · split at h
      · rename_i hs
        rw [if_pos hs]
      · exact absurd h hi
    · rfl
    · rename_i hf
      split at h
      · exact absurd h (by rw [Specialization.learn, if_neg hi]; exact hf i hi)
      · exact absurd h hi

end Op

/-! ## One step -/

theorem get?_demand : (ss.demand key).2.2.get? s =
    if ss.find? key = none ∧ s = ⟨ss.size⟩ then some { key } else ss.get? s := by
  cases h : ss.find? key with
  | some s' => simp [demand_of_find? h]
  | none =>
    obtain ⟨ss', hd, -, hget⟩ := demand_of_find?_none h
    simp [hd, hget]

theorem find?_demand : ((ss.demand key).2.2).find? key = some (ss.demand key).1 := by
  cases h : ss.find? key with
  | some s => simpa [demand_of_find? h] using h
  | none =>
    obtain ⟨ss', hd, -, hget⟩ := demand_of_find?_none h
    rw [hd, find?_eq_some]
    exact ⟨{ key }, by simp [hget], rfl⟩

theorem created_iff : (ss.demand key).2.1 = true ↔ ss.find? key = none := by
  cases h : ss.find? key with
  | some s => simp [demand_of_find? h]
  | none =>
    obtain ⟨ss', hd, -, hget⟩ := demand_of_find?_none h
    simp [hd]

theorem get?_size : ss.get? ⟨ss.size⟩ = none := Array.getElem?_eq_none_iff.2 (Nat.le_refl _)

/-- A step that demands nothing adds nothing. -/
theorem Op.get?_run_of_key?_none {o : Op} (h : o.key? = none) :
    (o.run ss).get? s = (ss.get? s).map (o.effect s) := by
  cases o with
  | demand => cases h
  | freeze s' =>
    rw [run, Specializations.freeze, get?_modify, effect]
    split
    · rename_i hs
      rw [hs]
    · exact Option.map_id'.symm
  | freezeAll => exact get?_freezeAll
  | learn s' f hf hf' =>
    rw [run, get?_modify, effect]
    split
    · rename_i hs
      rw [hs]
    · exact Option.map_id'.symm

/-- A step keeps the numbers of all specializations. -/
theorem Op.get?_run (o : Op) (h : ss.get? s = some i) :
    (o.run ss).get? s = some (o.effect s i) := by
  cases ho : o.key? with
  | none => rw [get?_run_of_key?_none ho, h, Option.map_some]
  | some key =>
    cases o with
    | demand key' =>
      rw [run, get?_demand, if_neg, h]
      · rfl
      · intro hn
        rw [hn.2, get?_size] at h
        cases h
    | _ => cases ho

/-- A specialization that was not there before is as a new one is. -/
theorem Op.get?_run_new {o : Op} (h : ss.get? s = none) (h' : (o.run ss).get? s = some i) :
    ∃ key, i = { key } := by
  cases ho : o.key? with
  | none =>
    rw [get?_run_of_key?_none ho, h] at h'
    cases h'
  | some key =>
    cases o with
    | demand key' =>
      rw [run, get?_demand] at h'
      split at h'
      · cases h'
        exact ⟨key', rfl⟩
      · rw [h] at h'
        cases h'
    | _ => cases ho

/-! ## Numbers -/

/-- The specializations have the keys `keys`, in the order of creation. -/
def Lists (ss : Specializations) (keys : List SpecKey) : Prop :=
  ∀ n, (ss.get? ⟨n⟩).map (·.key) = keys[n]?

namespace Lists

theorem empty : Lists {} [] := fun _ => rfl

theorem size_eq (H : ss.Lists keys) : ss.size = keys.length := by
  apply Nat.le_antisymm
  · have h := H keys.length
    rw [List.getElem?_eq_none (Nat.le_refl _), Option.map_eq_none_iff] at h
    exact Array.getElem?_eq_none_iff.1 h
  · have h := H ss.size
    rw [get?_size, Option.map_none] at h
    exact List.getElem?_eq_none_iff.1 h.symm

theorem find?_eq_none (H : ss.Lists keys) : ss.find? key = none ↔ key ∉ keys := by
  rw [Option.eq_none_iff_forall_ne_some, List.mem_iff_getElem?]
  constructor
  · rintro h ⟨n, hn⟩
    rw [← H n, Option.map_eq_some_iff] at hn
    exact h ⟨n⟩ (find?_eq_some.2 hn)
  · intro h s hs
    obtain ⟨i, hi, hk⟩ := find?_eq_some.1 hs
    exact h ⟨s.index, by rw [← H s.index, hi, Option.map_some, hk]⟩

/-- A key that is demanded for the first time comes last. -/
theorem demand (H : ss.Lists keys) :
    (ss.demand key).2.2.Lists (if key ∈ keys then keys else keys ++ [key]) := by
  intro n
  rw [get?_demand]
  by_cases hk : key ∈ keys
  · have hf : ss.find? key ≠ none := fun h => H.find?_eq_none.1 h hk
    rw [if_pos hk, if_neg fun h => hf h.1]
    exact H n
  · rw [if_neg hk, List.getElem?_append]
    by_cases hn : n < keys.length
    · rw [if_pos hn, if_neg]
      · exact H n
      · intro h
        have := congrArg Handle.index h.2
        simp only [H.size_eq] at this
        omega
    · rw [if_neg hn]
      by_cases hs : n = keys.length
      · rw [if_pos ⟨H.find?_eq_none.2 hk, by rw [H.size_eq, hs]⟩, hs, Nat.sub_self]
        rfl
      · rw [if_neg, H n, List.getElem?_eq_none (by omega), List.getElem?_eq_none]
        · simp only [List.length_singleton]
          omega
        · intro h
          exact hs ((congrArg Handle.index h.2).trans H.size_eq)

theorem run {o : Op} (H : ss.Lists keys) (ho : o.key? = none) : (o.run ss).Lists keys := by
  intro n
  rw [Op.get?_run_of_key?_none ho, Option.map_map, ← H n]
  exact congrArg (fun f => Option.map f _) (funext fun i => o.key_effect)

end Lists

/-! ## The specializations of a method -/

theorem mem_ids : s ∈ ss.ids ↔ ∃ i, ss.get? s = some i := by
  rw [ids, List.mem_map]
  constructor
  · rintro ⟨n, hn, rfl⟩
    exact exists_get? (List.mem_range.1 hn)
  · rintro ⟨i, hi⟩
    exact ⟨s.index, List.mem_range.2 (lt_size hi), rfl⟩

/-- The specializations of a method are listed in the order of their numbers. -/
theorem pairwise_ofMethod (ss : Specializations) (m : MethodId) :
    (ss.ofMethod m).Pairwise fun s s' => s.index < s'.index := by
  have h : ss.ids.Pairwise fun s s' => s.index < s'.index :=
    List.pairwise_map.2 List.pairwise_lt_range
  exact h.filter _

theorem mem_ofMethod {m : MethodId} :
    s ∈ ss.ofMethod m ↔ ∃ i, ss.get? s = some i ∧ i.key.method = m := by
  rw [ofMethod, List.mem_filter, mem_ids]
  constructor
  · rintro ⟨⟨i, hi⟩, h⟩
    rw [hi] at h
    exact ⟨i, hi, of_decide_eq_true h⟩
  · rintro ⟨i, hi, hm⟩
    exact ⟨⟨i, hi⟩, by rw [hi]; exact decide_eq_true hm⟩

/-! ## Any number of steps -/

/-- The specializations after some steps, there being none at first. -/
def after (ops : List Op) : Specializations := ops.foldl Op.run {}

/-- The keys that are demanded, each where it is demanded first. -/
def demanded (ops : List Op) : List SpecKey := (ops.filterMap Op.key?).eraseDups

theorem mem_demanded {ops : List Op} : key ∈ demanded ops ↔ ∃ o ∈ ops, o.key? = some key := by
  rw [demanded, List.mem_eraseDups, List.mem_filterMap]

theorem eraseDups_concat (keys : List SpecKey) (key : SpecKey) : (keys ++ [key]).eraseDups =
    if key ∈ keys then keys.eraseDups else keys.eraseDups ++ [key] := by
  rw [List.eraseDups_append, List.removeAll, List.filter_cons]
  by_cases h : key ∈ keys
  · rw [if_pos h, if_neg (by simpa using h)]
    exact List.append_nil _
  · rw [if_neg h, if_pos (by simpa using h)]
    rfl

theorem demanded_concat (ops : List Op) (o : Op) : demanded (ops ++ [o]) =
    match o.key? with
    | none => demanded ops
    | some key => if key ∈ demanded ops then demanded ops else demanded ops ++ [key] := by
  rw [demanded, List.filterMap_append]
  cases h : o.key? with
  | none =>
    rw [List.filterMap_cons_none h, List.filterMap_nil, List.append_nil]
    rfl
  | some key =>
    rw [List.filterMap_cons_some h, List.filterMap_nil]
    have hmem : key ∈ demanded ops ↔ key ∈ ops.filterMap Op.key? := List.mem_eraseDups
    simp only [hmem]
    exact eraseDups_concat _ key

theorem after_lists (ops : List Op) : (after ops).Lists (demanded ops) := by
  induction ops using List.reverseRecOn with
  | nil => exact Lists.empty
  | append_singleton ops o ih =>
    rw [after, List.foldl_append, demanded_concat]
    cases ho : o.key? with
    | none => exact ih.run ho
    | some key =>
      cases o with
      | demand key' =>
        cases ho
        exact ih.demand
      | _ => cases ho

/-- All that is frozen returns something. -/
def FrozenReturn (ss : Specializations) : Prop :=
  ∀ s i, ss.get? s = some i → i.stage = .frozen → i.returnType ≠ .never

theorem Op.run_frozenReturn (o : Op) (H : ss.FrozenReturn) : (o.run ss).FrozenReturn := by
  intro s i h hi
  cases hold : ss.get? s with
  | none =>
    obtain ⟨key, rfl⟩ := get?_run_new hold h
    cases hi
  | some i' =>
    rw [o.get?_run hold] at h
    cases h
    rw [o.effect_frozen hi]
    exact Specialization.returnType_freeze (H s i' hold)

theorem foldl_frozenReturn (ops : List Op) (H : ss.FrozenReturn) :
    (ops.foldl Op.run ss).FrozenReturn := by
  induction ops generalizing ss with
  | nil => exact H
  | cons o ops ih => exact ih (o.run_frozenReturn H)

theorem foldl_frozen (ops : List Op) (h : ss.get? s = some i) (hi : i.stage = .frozen) :
    (ops.foldl Op.run ss).get? s = some i := by
  induction ops generalizing ss with
  | nil => exact h
  | cons o ops ih => exact ih (by rw [o.get?_run h, o.effect_of_frozen hi])

theorem foldl_key (ops : List Op) (h : ss.get? s = some i) :
    ∃ i', (ops.foldl Op.run ss).get? s = some i' ∧ i'.key = i.key := by
  induction ops generalizing ss i with
  | nil => exact ⟨i, h, rfl⟩
  | cons o ops ih =>
    obtain ⟨i', hi', hk⟩ := ih (o.get?_run h)
    exact ⟨i', hi', hk.trans o.key_effect⟩

/-- A key that was demanded leads to the same specialization from then on. -/
theorem demand_foldl (ops : List Op) (ss : Specializations) (key : SpecKey) :
    let later := (Op.demand key :: ops).foldl Op.run ss
    later.demand key = ((ss.demand key).1, false, later) := by
  have hf : ((ss.demand key).2.2).find? key = some (ss.demand key).1 := find?_demand
  obtain ⟨i, hi, hk⟩ := find?_eq_some.1 hf
  obtain ⟨i', hi', hk'⟩ := foldl_key ops hi
  exact demand_of_find? (find?_eq_some.2 ⟨i', hi', hk'.trans hk⟩)

/-- However specializations are demanded and frozen and become known, there is one for each key,
numbered in the order in which the keys were demanded first; a key leads to the same one from then
on, and demanding it again changes nothing. Those of a method are listed by their numbers. Freezing
all leaves out none, and one that is frozen returns something and stays as it is. -/
theorem steps_keep (ops : List Op) :
    (∀ n, ((after ops).get? ⟨n⟩).map (·.key) = (demanded ops)[n]?) ∧
    (∀ key s, (after ops).find? key = some s ↔ ∃ i, (after ops).get? s = some i ∧ i.key = key) ∧
    (∀ key, ((after ops).demand key).2.1 = true ↔ ∀ o ∈ ops, o.key? ≠ some key) ∧
    (∀ key more, let later := after (ops ++ .demand key :: more)
      later.demand key = (((after ops).demand key).1, false, later)) ∧
    (∀ m, ((after ops).ofMethod m).Pairwise (fun s s' => s.index < s'.index) ∧
      ∀ s, s ∈ (after ops).ofMethod m ↔ ∃ i, (after ops).get? s = some i ∧ i.key.method = m) ∧
    (∀ s i, (after (ops ++ [.freezeAll])).get? s = some i → i.stage = .frozen) ∧
    ∀ s i, (after ops).get? s = some i → i.stage = .frozen →
      i.returnType ≠ .never ∧ ∀ more, (after (ops ++ more)).get? s = some i := by
  refine ⟨after_lists ops, fun _ _ => find?_eq_some, fun key => ?_, fun key more => ?_,
    fun m => ⟨pairwise_ofMethod _ m, fun _ => mem_ofMethod⟩, fun s i hi => ?_,
    fun s i hi hfrozen => ⟨?_, fun more => ?_⟩⟩
  · rw [created_iff, (after_lists ops).find?_eq_none, mem_demanded]
    exact ⟨fun h o ho hk => h ⟨o, ho, hk⟩, fun h ⟨o, ho, hk⟩ => h o ho hk⟩
  · rw [after, List.foldl_append]
    exact demand_foldl more (after ops) key
  · rw [after, List.foldl_append] at hi
    obtain ⟨i', -, rfl⟩ := Option.map_eq_some_iff.1 (get?_freezeAll.symm.trans hi)
    exact i'.stage_freeze
  · have hnone : FrozenReturn {} := fun s i h => by cases h
    exact foldl_frozenReturn ops hnone s i hi hfrozen
  · rw [after, List.foldl_append]
    exact foldl_frozen more hi hfrozen

/-- Specializations that come of others in some steps. -/
def Later (ss ss' : Specializations) : Prop := ∃ ops : List Op, ops.foldl Op.run ss = ss'

namespace Later

variable {ss' ss'' : Specializations}

theorem refl (ss : Specializations) : Later ss ss := ⟨[], rfl⟩

theorem trans (h : Later ss ss') (h' : Later ss' ss'') : Later ss ss'' := by
  obtain ⟨ops, rfl⟩ := h
  obtain ⟨ops', rfl⟩ := h'
  exact ⟨ops ++ ops', List.foldl_append⟩

theorem demand (ss : Specializations) (key : SpecKey) : Later ss (ss.demand key).2.2 :=
  ⟨[.demand key], rfl⟩

/-- What becomes known of a specialization that is not frozen. -/
theorem modify {f : Specialization → Specialization} (hkey : ∀ i, (f i).key = i.key)
    (hstage : ∀ i, i.stage ≠ .frozen → (f i).stage ≠ .frozen)
    (hs : ∀ i, ss.get? s = some i → i.stage ≠ .frozen) : Later ss (ss.modify s f hkey) := by
  refine ⟨[.learn s f hkey hstage], ?_⟩
  have hentries (n : Nat) : ((Op.learn s f hkey hstage).run ss).get? ⟨n⟩ =
      (ss.modify s f hkey).get? ⟨n⟩ := by
    rw [Op.run, get?_modify, get?_modify]
    split
    · cases hi : ss.get? s with
      | none => rfl
      | some i => exact congrArg some (if_neg (hs i hi))
    · rfl
  exact congrArg Specializations.mk (Catalog.ext_entries (Array.ext_getElem? hentries))

end Later

end Specializations

end Multimethod
