import Mathlib.Data.List.Nodup
import Multimethod.Proofs.Hierarchy.Reachable

/-!
# The classes below one

In a forest no path down is longer than there are classes, so `descendants` reaches every class below
one: it lists a class, then child by child what is below it (`Forest.descendants_eq`). That is what a
traversal visits which keeps the classes still to come on a stack (`Forest.iterate_visitTop`). So the
list is the pre-order of the subtree (`reachable_preorder`).
-/

namespace Multimethod.Hierarchy

open Relation

variable {h : Hierarchy} {t : TypeTable} {b c d e p : ClassId} {n k : Nat}

/-! ## The levels of a forest -/

section
variable (F : h.Forest) (hsize : 0 < h.size)
include F hsize

/-- Going down from a class, there are no more levels than classes. -/
theorem Forest.subtree_succ (hn : h.Depth c n) (hk : h.size ≤ n + k) :
    h.subtree (k + 1) c = h.subtree k c := by
  induction k generalizing c n with
  | zero =>
    have := F.depth_lt_size hn hsize
    omega
  | succ k ih =>
    rw [subtree, subtree]
    congr 1
    apply List.flatMap_congr
    intro d hd
    exact ih (.up ((F.mem_children c d).1 hd) hn) (by omega)

/-- A class comes first, then what is below each class directly below it. -/
theorem Forest.descendants_eq (c : ClassId) :
    h.descendants c = c :: (h.children c).flatMap h.descendants := by
  obtain ⟨k, hk⟩ : ∃ k, h.size = k + 1 := ⟨h.size - 1, by omega⟩
  obtain ⟨n, hn⟩ := F.depth c
  rw [descendants, hk, subtree]
  congr 1
  apply List.flatMap_congr
  intro d hd
  have hstep := F.subtree_succ hsize (k := k) (.up ((F.mem_children c d).1 hd) hn) (by omega)
  rw [descendants, hk, hstep]

/-- What passes from the classes directly below one to the class itself holds of all classes. -/
@[elab_as_elim]
theorem Forest.down_induction {P : ClassId → Prop} (down : ∀ c, (∀ d ∈ h.children c, P d) → P c)
    (c : ClassId) : P c := by
  have go (k : Nat) : ∀ c n, h.Depth c n → h.size ≤ n + k → P c := by
    induction k with
    | zero =>
      intro c n hn hk
      have := F.depth_lt_size hn hsize
      omega
    | succ k ih =>
      intro c n hn hk
      apply down
      intro d hd
      exact ih d (n + 1) (.up ((F.mem_children c d).1 hd) hn) (by omega)
  obtain ⟨n, hn⟩ := F.depth c
  exact go h.size c n hn (by omega)

end

/-! ## What is listed -/

theorem mem_descendants_self (hsize : 0 < h.size) (c : ClassId) : c ∈ h.descendants c := by
  obtain ⟨n, hn⟩ := Nat.exists_eq_add_of_lt hsize
  rw [descendants, hn, subtree]
  exact .head _

theorem Forest.above_of_mem_descendants (F : h.Forest) (hd : d ∈ h.descendants c) :
    ReflTransGen h.Up d c := by
  have go (n : Nat) : ∀ c, d ∈ h.subtree n c → ReflTransGen h.Up d c := by
    induction n with
    | zero =>
      intro c hd
      cases hd
    | succ n ih =>
      intro c hd
      rcases List.mem_cons.1 hd with rfl | hd
      · exact .refl
      · obtain ⟨e, he, hd⟩ := List.mem_flatMap.1 hd
        exact (ih e hd).tail ((F.mem_children c e).1 he)
  exact go _ c hd

/-- What is below a class of the hierarchy is a class of the hierarchy. -/
theorem Forest.lt_size_of_mem_descendants (F : h.Forest) (hc : c.index < h.size)
    (hd : d ∈ h.descendants c) : d.index < h.size := by
  rcases (F.above_of_mem_descendants hd).cases_head with rfl | ⟨e, hde, -⟩
  · exact hc
  · exact lt_size_of_up hde

/-- A class is listed below another just if this is on the way up from it. -/
theorem Forest.mem_descendants (F : h.Forest) (hsize : 0 < h.size) :
    d ∈ h.descendants c ↔ ReflTransGen h.Up d c := by
  refine ⟨F.above_of_mem_descendants, fun hdc => ?_⟩
  induction hdc with
  | refl => exact mem_descendants_self hsize d
  | @tail e c _ hup ih =>
    rw [F.descendants_eq hsize]
    exact .tail _ (List.mem_flatMap.2 ⟨e, (F.mem_children c e).2 hup, ih⟩)

/-- Nothing is below two of the classes directly below one. -/
theorem Forest.eq_of_below (F : h.Forest) (hd : d ∈ h.children c) (he : e ∈ h.children c)
    (hbd : ReflTransGen h.Up b d) (hbe : ReflTransGen h.Up b e) : d = e := by
  have unique : Relator.RightUnique h.Up := fun a p q hp hq => Option.some.inj (hp.symm.trans hq)
  have aux {d e : ClassId} (hd : h.Up d c) (he : h.Up e c) (hde : ReflTransGen h.Up d e) : d = e := by
    rcases hde.cases_head with rfl | ⟨q, hq, hqe⟩
    · rfl
    · -- The way up from `d` goes through `c` to `e`, which is below `c`.
      cases hd.symm.trans hq
      exact absurd (TransGen.tail' hqe he) (F.acyclic c)
  rw [F.mem_children] at hd he
  rcases ReflTransGen.total_of_right_unique unique hbd hbe with hde | hed
  · exact aux hd he hde
  · exact (aux he hd hed).symm

section
variable (F : h.Forest) (hsize : 0 < h.size)
include F hsize

theorem Forest.nodup_descendants (c : ClassId) : (h.descendants c).Nodup := by
  induction c using F.down_induction hsize with
  | down c ih =>
    rw [F.descendants_eq hsize, List.nodup_cons, List.nodup_flatMap]
    refine ⟨fun hc => ?_, ih, ?_⟩
    · obtain ⟨d, hd, hcd⟩ := List.mem_flatMap.1 hc
      exact F.acyclic c (.tail' (F.above_of_mem_descendants hcd) ((F.mem_children c d).1 hd))
    · refine List.Pairwise.imp_of_mem ?_ (F.nodup c)
      intro d e hd he hne b hbd hbe
      exact hne
        (F.eq_of_below hd he (F.above_of_mem_descendants hbd) (F.above_of_mem_descendants hbe))

omit F hsize in
theorem descendants_child (hd : d ∈ h.children c) :
    h.descendants d <:+: (h.children c).flatMap h.descendants := by
  rw [List.flatMap_def]
  exact List.infix_of_mem_flatten (List.mem_map_of_mem hd)

/-- What is below a class stays together. -/
theorem Forest.descendants_infix (hd : d ∈ h.descendants c) :
    h.descendants d <:+: h.descendants c := by
  induction c using F.down_induction hsize with
  | down c ih =>
    rw [F.descendants_eq hsize, List.mem_cons, List.mem_flatMap] at hd
    rcases hd with rfl | ⟨e, he, hd⟩
    · exact List.infix_rfl
    · rw [F.descendants_eq hsize c]
      exact (ih e he hd).trans ((descendants_child he).trans (List.infix_cons List.infix_rfl))

/-- A superclass is listed before what it is the superclass of. -/
theorem Forest.superclass_before (hd : d ∈ h.descendants c) (hne : d ≠ c) (hp : h.Up d p) :
    [p, d].Sublist (h.descendants c) := by
  have hpc : p ∈ h.descendants c := by
    rw [F.mem_descendants hsize] at hd ⊢
    rcases hd.cases_head with rfl | ⟨q, hq, hqc⟩
    · exact absurd rfl hne
    · cases hp.symm.trans hq
      exact hqc
  have hinfix := F.descendants_infix hsize hpc
  refine List.Sublist.trans ?_ hinfix.sublist
  -- Among what is below `p`, `p` comes first.
  rw [F.descendants_eq hsize]
  apply List.Sublist.cons_cons
  rw [List.singleton_sublist, List.mem_flatMap]
  exact ⟨d, (F.mem_children p d).2 hp, mem_descendants_self hsize d⟩

end

/-! ## The traversal with a stack -/

/-- One round of a traversal: the class on top of the stack is visited, and the classes directly
below it are put in its place, the first of them on top. -/
def visitTop (h : Hierarchy) : List ClassId × List ClassId → List ClassId × List ClassId
  | (visited, []) => (visited, [])
  | (visited, c :: stack) => (visited ++ [c], h.children c ++ stack)

section
variable (F : h.Forest) (hsize : 0 < h.size)
include F hsize

/-- What is still to come, from top to bottom of the stack, loses the class that is visited. -/
theorem Forest.pending_visitTop (stack : List ClassId) :
    (c :: stack).flatMap h.descendants = c :: (h.children c ++ stack).flatMap h.descendants := by
  rw [List.flatMap_cons, F.descendants_eq hsize, List.cons_append, List.flatMap_append]

/-- The rounds end with an empty stack when all that was to come has been visited. -/
theorem Forest.iterate_visitTop (n : Nat) (visited stack : List ClassId)
    (hn : (stack.flatMap h.descendants).length = n) :
    h.visitTop^[n] (visited, stack) = (visited ++ stack.flatMap h.descendants, []) := by
  induction n generalizing visited stack with
  | zero =>
    cases stack with
    | nil => simp
    | cons c stack =>
      rw [F.pending_visitTop hsize] at hn
      cases hn
  | succ n ih =>
    cases stack with
    | nil => cases hn
    | cons c stack =>
      rw [F.pending_visitTop hsize] at hn ⊢
      rw [Function.iterate_succ_apply]
      show h.visitTop^[n] (visited ++ [c], h.children c ++ stack) = _
      rw [ih _ _ (Nat.succ.inj hn), List.append_assoc]
      rfl

end

/-! ## Everything that is reached -/

/-- What is below a class is its subtree in pre-order: the traversal with a stack visits it and ends,
the class comes first, every class below it is listed once, after its superclass, and each with all
that is below it in one piece. -/
theorem reachable_preorder (hr : Reachable h t) (hc : c.index < h.size) :
    (∃ n ≤ h.size, h.visitTop^[n] ([], [c]) = (h.descendants c, [])) ∧
    (h.descendants c).head? = some c ∧
    (h.descendants c).Nodup ∧
    (∀ d, d ∈ h.descendants c ↔ d.index < h.size ∧ h.isBelow d c = true) ∧
    (∀ d p, d ∈ h.descendants c → d ≠ c → h.superclass d = some p →
      [p, d].Sublist (h.descendants c)) ∧
    ∀ d ∈ h.descendants c, h.descendants d <:+: h.descendants c := by
  have R := hr.described.rooted
  have F := R.toForest
  have hsize := R.nonempty
  have hnodup := F.nodup_descendants hsize c
  refine ⟨⟨(h.descendants c).length, ?_, ?_⟩, ?_, hnodup, fun d => ?_, ?_, ?_⟩
  · have hsub : h.descendants c ⊆ h.ids := fun d hd => mem_ids.2 (F.lt_size_of_mem_descendants hc hd)
    have hle := (hnodup.subperm hsub).length_le
    simpa [ids] using hle
  · have := F.iterate_visitTop hsize _ [] [c] rfl
    rwa [List.flatMap_singleton] at this
  · rw [F.descendants_eq hsize]
    rfl
  · rw [R.isBelow_iff, ← F.mem_descendants hsize]
    exact ⟨fun hd => ⟨F.lt_size_of_mem_descendants hc hd, hd⟩, And.right⟩
  · intro d p hd hne hp
    exact F.superclass_before hsize hd hne hp
  · intro d hd
    exact F.descendants_infix hsize hd

/-- `A`, below it `B` and `D`, and `C` below `B`, which is declared last. -/
def nested : Hierarchy × TypeTable :=
  ofDecls [⟨⟨9⟩, none, .dummy⟩, ⟨⟨10⟩, some ⟨9⟩, .dummy⟩, ⟨⟨12⟩, some ⟨9⟩, .dummy⟩,
    ⟨⟨11⟩, some ⟨10⟩, .dummy⟩]

/-- `C`, though declared after `D`, is listed with `B`. -/
theorem reachable_preorder_nested :
    let h := nested.1
    Reachable h nested.2 ∧ 5 < h.size ∧ h.descendants ⟨5⟩ = [⟨5⟩, ⟨6⟩, ⟨8⟩, ⟨7⟩] ∧
      h.descendants ⟨6⟩ <:+: h.descendants ⟨5⟩ ∧
      ∃ n ≤ h.size, h.visitTop^[n] ([], [⟨5⟩]) = (h.descendants ⟨5⟩, []) := by
  have hr : Reachable nested.1 nested.2 := ofDecls_reachable _
  have hc : 5 < nested.1.size := by decide +kernel
  have hlist : nested.1.descendants ⟨5⟩ = [⟨5⟩, ⟨6⟩, ⟨8⟩, ⟨7⟩] := by decide +kernel
  obtain ⟨hvisits, -, -, -, -, hpieces⟩ := reachable_preorder (c := ⟨5⟩) hr hc
  exact ⟨hr, hc, hlist, hpieces ⟨6⟩ (hlist ▸ by decide), hvisits⟩

end Multimethod.Hierarchy
