import Mathlib.Data.Fintype.Card
import Mathlib.Logic.Relation
import Multimethod.Proofs.Hierarchy.Declare

/-!
# Forests of classes

While classes are declared, some of them are not yet placed below another, so the hierarchy is a
forest: from every class the way up ends (`Depth`), and the classes below one are those whose
superclass it is (`Forest`). A class that is a root may be placed below any class that is not below
it (`Forest.place`). In a forest, `ancestors` is the whole way up (`Forest.mem_ancestors`).
-/

namespace Multimethod.Hierarchy

open Relation

variable {h h' : Hierarchy} {c d p : ClassId} {m n k : Nat}

/-- `p` is the superclass of `c`. -/
def Up (h : Hierarchy) (c p : ClassId) : Prop := h.superclass c = some p

/-- The way up from a class ends after so many steps. -/
inductive Depth (h : Hierarchy) : ClassId → Nat → Prop where
  | root {c : ClassId} (hc : h.superclass c = none) : Depth h c 0
  | up {c p : ClassId} {n : Nat} (hc : h.Up c p) (hp : Depth h p n) : Depth h c (n + 1)

theorem lt_size_of_up (h : Up h' c p) : c.index < h'.size := by
  unfold Up superclass at h
  cases hi : h'.get? c with
  | none => simp [hi] at h
  | some i => exact lt_size hi

/-! ## The way up -/

namespace Depth

theorem unique (hn : h.Depth c n) (hm : h.Depth c m) : n = m := by
  induction hn generalizing m with
  | root hc =>
    cases hm with
    | root => rfl
    | up hc' => cases hc.symm.trans hc'
  | up hc _ ih =>
    cases hm with
    | root hc' => cases hc.symm.trans hc'
    | up hc' hp' =>
      cases hc.symm.trans hc'
      rw [ih hp']

/-- What is further up is less deep. -/
theorem le_of_above (hn : h.Depth c n) (hd : ReflTransGen h.Up c d) : ∃ m ≤ n, h.Depth d m := by
  induction hd with
  | refl => exact ⟨n, Nat.le_refl n, hn⟩
  | tail _ hup ih =>
    obtain ⟨m, hm, hdepth⟩ := ih
    cases hdepth with
    | root hc => cases hc.symm.trans hup
    | up hc hp =>
      cases hc.symm.trans hup
      exact ⟨_, Nat.le_of_succ_le hm, hp⟩

/-- No class is above itself. -/
theorem acyclic (hn : h.Depth c n) : ¬ TransGen h.Up c c := by
  intro hcycle
  obtain ⟨p, hup, habove⟩ := TransGen.head'_iff.1 hcycle
  cases hn with
  | root hc => cases hc.symm.trans hup
  | up hc hp =>
    cases hc.symm.trans hup
    obtain ⟨m, hm, hdepth⟩ := hp.le_of_above habove
    have := hdepth.unique (.up hc hp)
    omega

end Depth

theorem isChain_chain : (h.chain k c).IsChain h.Up := by
  induction k generalizing c with
  | zero => exact .nil
  | succ k ih =>
    rw [chain]
    cases hs : h.superclass c with
    | none => exact .singleton c
    | some p =>
      cases k with
      | zero => exact .singleton c
      | succ k => exact .cons_cons hs ih

/-- What is on the way is above. -/
theorem above_of_mem_chain (hd : d ∈ h.chain k c) : ReflTransGen h.Up c d := by
  induction k generalizing c with
  | zero => cases hd
  | succ k ih =>
    rw [chain] at hd
    rcases List.mem_cons.1 hd with rfl | hd
    · exact .refl
    · cases hs : h.superclass c with
      | none => simp [hs] at hd
      | some p => exact .head hs (ih (by simpa [hs] using hd))

namespace Depth

theorem length_chain (hn : h.Depth c n) (hk : n < k) : (h.chain k c).length = n + 1 := by
  induction hn generalizing k with
  | root hc =>
    obtain ⟨k, rfl⟩ := Nat.exists_eq_add_of_lt hk
    simp [chain, hc]
  | up hc _ ih =>
    obtain ⟨k, rfl⟩ := Nat.exists_eq_add_of_lt hk
    rw [chain, show h.superclass _ = _ from hc, List.length_cons, ih (by omega)]

/-- The way ends at a class without superclass. -/
theorem getLast?_chain (hn : h.Depth c n) (hk : n < k) :
    ∃ r, (h.chain k c).getLast? = some r ∧ h.superclass r = none := by
  induction hn generalizing k with
  | @root c hc =>
    obtain ⟨k, rfl⟩ := Nat.exists_eq_add_of_lt hk
    exact ⟨c, by simp [chain, hc], hc⟩
  | up hc _ ih =>
    obtain ⟨k, rfl⟩ := Nat.exists_eq_add_of_lt hk
    obtain ⟨r, hr, hroot⟩ := ih (k := _) (Nat.lt_of_succ_lt_succ hk)
    refine ⟨r, ?_, hroot⟩
    rw [chain, show h.superclass _ = _ from hc, List.getLast?_cons, hr]
    rfl

theorem mem_chain (hn : h.Depth c n) (hk : n < k) : d ∈ h.chain k c ↔ ReflTransGen h.Up c d := by
  refine ⟨above_of_mem_chain, fun hd => ?_⟩
  induction hn generalizing k with
  | root hc =>
    obtain ⟨k, rfl⟩ := Nat.exists_eq_add_of_lt hk
    rcases ReflTransGen.cases_head hd with rfl | ⟨p, hup, -⟩
    · simp [chain]
    · cases hc.symm.trans hup
  | up hc _ ih =>
    obtain ⟨k, rfl⟩ := Nat.exists_eq_add_of_lt hk
    rw [chain, show h.superclass _ = _ from hc]
    rcases ReflTransGen.cases_head hd with rfl | ⟨p, hup, habove⟩
    · exact .head _
    · cases hc.symm.trans hup
      exact .tail _ (ih (by omega) habove)

theorem nodup_chain (hn : h.Depth c n) : (h.chain k c).Nodup := by
  induction k generalizing c n with
  | zero => exact .nil
  | succ k ih =>
    rw [chain]
    cases hn with
    | root hc => simp [hc]
    | up hc hp =>
      rw [show h.superclass _ = _ from hc]
      refine List.nodup_cons.2 ⟨fun hmem => ?_, ih hp⟩
      exact (Depth.up hc hp).acyclic (.head' hc (above_of_mem_chain hmem))

end Depth

/-! ## Forests -/

/-- The way up from every class ends, superclasses are classes of the hierarchy, and the classes
below one are listed once each. -/
structure Forest (h : Hierarchy) : Prop where
  depth : ∀ c, ∃ n, h.Depth c n
  lt_size : ∀ c p, h.Up c p → p.index < h.size
  nodup : ∀ c, (h.children c).Nodup
  mem_children : ∀ c d, d ∈ h.children c ↔ h.Up d c

namespace Forest

variable (F : h.Forest)
include F

theorem acyclic (c : ClassId) : ¬ TransGen h.Up c c := (F.depth c).elim fun _ hn => hn.acyclic

theorem above_lt_size (hc : c.index < h.size) (hd : ReflTransGen h.Up c d) : d.index < h.size := by
  cases hd with
  | refl => exact hc
  | tail _ hup => exact F.lt_size _ _ hup

/-- No way up is longer than there are classes. -/
theorem depth_lt_size (hn : h.Depth c n) (hsize : 0 < h.size) : n < h.size := by
  cases hn with
  | root => exact hsize
  | @up c p n hup hp =>
    have hsub : h.chain (n + 2) c ⊆ h.ids := fun d hd =>
      mem_ids.2 (F.above_lt_size (lt_size_of_up hup) (above_of_mem_chain hd))
    have hdepth := Depth.up hup hp
    have hle := (hdepth.nodup_chain.subperm hsub).length_le
    rw [hdepth.length_chain (Nat.lt_succ_self _)] at hle
    simpa [ids] using hle

theorem mem_ancestors (hsize : 0 < h.size) : d ∈ h.ancestors c ↔ ReflTransGen h.Up c d := by
  obtain ⟨n, hn⟩ := F.depth c
  exact hn.mem_chain (F.depth_lt_size hn hsize)

theorem isBelow_iff (hsize : 0 < h.size) : h.isBelow c d = true ↔ ReflTransGen h.Up c d := by
  rw [Hierarchy.isBelow_iff, F.mem_ancestors hsize]

/-- A hierarchy with the same links. -/
theorem congr (hsup : ∀ c, h'.superclass c = h.superclass c)
    (hchildren : ∀ c, h'.children c = h.children c) (hsize : h.size ≤ h'.size) : h'.Forest where
  depth c := by
    obtain ⟨n, hn⟩ := F.depth c
    refine ⟨n, ?_⟩
    induction hn with
    | root hc => exact .root ((hsup _).trans hc)
    | up hc _ ih => exact .up ((hsup _).trans hc) ih
  lt_size c p hp := (F.lt_size c p ((hsup c).symm.trans hp)).trans_le hsize
  nodup c := hchildren c ▸ F.nodup c
  mem_children c d := by rw [hchildren, F.mem_children, Up, Up, hsup]

end Forest

/-! ## Placing a class -/

theorem superclass_place (hc : c.index < h.size) :
    (h.place c p).superclass d = if d = c then some p else h.superclass d := by
  rw [superclass, get?_place]
  split
  · rename_i hd
    subst hd
    obtain ⟨i, hi⟩ : ∃ i, h.get? d = some i := ⟨_, Array.getElem?_eq_getElem hc⟩
    simp [hi]
  · rw [superclass]
    cases h.get? d <;> rfl

/-- Placing some classes below one. -/
theorem superclass_foldl_place (cs : List ClassId) (hcs : ∀ c ∈ cs, c.index < h.size) :
    (cs.foldl (fun h c => h.place c p) h).superclass d =
      if d ∈ cs then some p else h.superclass d := by
  induction cs generalizing h with
  | nil => rw [if_neg List.not_mem_nil]; rfl
  | cons c cs ih =>
    obtain ⟨hc, hcs⟩ := List.forall_mem_cons.1 hcs
    have hcs' : ∀ c' ∈ cs, c'.index < (h.place c p).size := by
      rw [size_place]
      exact hcs
    rw [List.foldl_cons, ih hcs', superclass_place hc]
    by_cases hd : d = c
    · simp [hd]
    · simp [hd]

/-- Where classes are once those that are left have been placed. -/
theorem superclass_placeRest {old : Nat} : (h.placeRest old).superclass c =
    if c.index < h.size ∧ old ≤ c.index ∧ h.superclass c = none then some .object
    else h.superclass c := by
  rw [placeRest, superclass_foldl_place _ fun c hc => mem_ids.1 (List.mem_filter.1 hc).1]
  simp [mem_ids]

theorem children_place (hp : p.index < h.size) :
    (h.place c p).children d = if d = p then h.children d ++ [c] else h.children d := by
  rw [children, get?_place, children]
  by_cases hd : d = p
  · subst hd
    obtain ⟨i, hi⟩ : ∃ i, h.get? d = some i := ⟨_, Array.getElem?_eq_getElem hp⟩
    simp [hi]
  · simp only [hd, if_false]
    cases h.get? d <;> rfl

/-- A root may be placed below what is not below it. -/
theorem Forest.place (F : h.Forest) (hc : c.index < h.size) (hp : p.index < h.size)
    (hroot : h.superclass c = none) (hbelow : ¬ ReflTransGen h.Up p c) :
    (h.place c p).Forest := by
  have up (d : ClassId) (hd : d ≠ c) : (h.place c p).superclass d = h.superclass d := by
    rw [superclass_place hc, if_neg hd]
  have ne {d q : ClassId} (hq : h.Up d q) : d ≠ c := by
    rintro rfl
    cases hroot.symm.trans hq
  -- The way up from `p` has not changed, and that from `c` goes on with it.
  have avoids {d : ClassId} {n : Nat} (hn : h.Depth d n) (hd : ¬ ReflTransGen h.Up d c) :
      (h.place c p).Depth d n := by
    induction hn with
    | root hr =>
      refine .root ?_
      rw [up _ fun he => hd (he ▸ .refl), hr]
    | up hq _ ih => exact .up ((up _ (ne hq)).trans hq) (ih fun habove => hd (.head hq habove))
  obtain ⟨k, hk⟩ := F.depth p
  have hdepth : (h.place c p).Depth c (k + 1) :=
    .up (by rw [Up, superclass_place hc, if_pos rfl]) (avoids hk hbelow)
  constructor
  case depth =>
    intro d
    obtain ⟨n, hn⟩ := F.depth d
    induction hn with
    | @root d hr =>
      by_cases hd : d = c
      · exact ⟨k + 1, hd ▸ hdepth⟩
      · exact ⟨0, .root ((up d hd).trans hr)⟩
    | up hq _ ih =>
      obtain ⟨m, hm⟩ := ih
      exact ⟨m + 1, .up ((up _ (ne hq)).trans hq) hm⟩
  case lt_size =>
    intro d q hq
    rw [size_place]
    rw [Up, superclass_place hc] at hq
    split at hq
    · cases hq
      exact hp
    · exact F.lt_size d q hq
  case nodup =>
    intro d
    rw [children_place hp]
    split
    · rename_i hd
      subst hd
      refine List.nodup_append.2 ⟨F.nodup d, List.nodup_singleton c, ?_⟩
      rintro x hx y hy rfl
      rw [List.mem_singleton] at hy
      exact ne ((F.mem_children d x).1 hx) hy
    · exact F.nodup d
  case mem_children =>
    intro d e
    rw [children_place hp, Up, superclass_place hc]
    by_cases hd : d = p <;> by_cases he : e = c
    · simp [hd, he]
    · simp [hd, he, F.mem_children, Up]
    · subst he
      simp [hd, F.mem_children, Up, hroot, Ne.symm hd]
    · simp [hd, he, F.mem_children, Up]

end Multimethod.Hierarchy
