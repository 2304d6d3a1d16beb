import Multimethod.Proofs.Hierarchy.Forest
import Multimethod.Proofs.Type.Reachable

/-!
# Declaring classes keeps one tree

Declaring classes keeps a forest at each of its steps: a new class is a root, a clause that is
followed places a root below a class that is not below it, and the roots that are left go below the
root of the tree. So a tree with one root (`Rooted`) stays one, and every earlier class stays where it
was (`Rooted.declare`).
-/

namespace Multimethod.Hierarchy

open Relation TypeTable

variable {h h' h'' : Hierarchy} {t u : TypeTable} {c d p : ClassId} {n m : Name} {old : Nat}

/-- From `h` to the forest `h'`, classes are added, and those before `old` stay as they are, but for
what is put below them. -/
structure Grows (old : Nat) (h h' : Hierarchy) : Prop where
  forest : h'.Forest
  size : h.size ≤ h'.size
  keeps : ∀ c i, c.index < old → h.get? c = some i →
    ∃ cs, h'.get? c = some { i with children := i.children ++ cs }
  ivarType : ∀ c n, h'.ivarType c n = h.ivarType c n

namespace Grows

theorem refl (F : h.Forest) : Grows old h h :=
  ⟨F, Nat.le_refl _, fun c i _ hi => ⟨[], by simpa using hi⟩, fun _ _ => rfl⟩

theorem trans (H : Grows old h h') (H' : Grows old h' h'') : Grows old h h'' where
  forest := H'.forest
  size := H.size.trans H'.size
  keeps c i hc hi := by
    obtain ⟨cs, hi'⟩ := H.keeps c i hc hi
    obtain ⟨cs', hi''⟩ := H'.keeps c _ hc hi'
    exact ⟨cs ++ cs', by simpa using hi''⟩
  ivarType c n := (H'.ivarType c n).trans (H.ivarType c n)

theorem superclass (H : Grows old h h') (hc : c.index < old) (hsize : c.index < h.size) :
    h'.superclass c = h.superclass c := by
  obtain ⟨i, hi⟩ : ∃ i, h.get? c = some i := ⟨_, Array.getElem?_eq_getElem hsize⟩
  obtain ⟨cs, hi'⟩ := H.keeps c i hc hi
  simp [Hierarchy.superclass, hi, hi']

end Grows

/-! ## The steps of a declaration -/

theorem get?_eq_none (hc : h.size ≤ c.index) : h.get? c = none := Array.getElem?_eq_none hc

/-- A new class is a root. -/
theorem superclass_add (n : Name) (span : Span) (t : TypeTable) (c : ClassId) :
    (h.add n span t).1.superclass c = h.superclass c := by
  cases hf : h.find? n with
  | some c => rw [add_of_find? hf]
  | none =>
    obtain ⟨h', hadd, hsize, hget⟩ := add_of_find?_none (t := t) hf span
    rw [hadd, superclass, superclass, hget]
    split
    · rename_i hc
      rw [get?_eq_none hc.ge]
      rfl
    · rfl

theorem Forest.add (F : h.Forest) (hold : old ≤ h.size) (n : Name) (span : Span) (t : TypeTable) :
    Grows old h (h.add n span t).1 := by
  cases hf : h.find? n with
  | some c =>
    rw [add_of_find? hf]
    exact .refl F
  | none =>
    obtain ⟨h', hadd, hsize, hget⟩ := add_of_find?_none (t := t) hf span
    rw [hadd]
    dsimp only
    have none {c : ClassId} (hc : c.index = h.size) : h.get? c = none := get?_eq_none hc.ge
    have hsup (c : ClassId) : h'.superclass c = h.superclass c := by
      have := superclass_add n span t (h := h) c
      rwa [hadd] at this
    refine ⟨F.congr hsup (fun c => ?_) (by omega), by omega, fun c i hc hi => ?_, fun c n => ?_⟩
    · rw [children, children, hget]
      split
      · rw [none ‹_›]
        rfl
      · rfl
    · exact ⟨[], by rw [hget, if_neg (by omega), hi, List.append_nil]⟩
    · rw [ivarType, ivarType, ivars, ivars, hget]
      split
      · rw [none ‹_›]
        rfl
      · rfl

/-- Placing a class that is not an old one. -/
theorem Forest.place_grows (F : h.Forest) (hc : c.index < h.size) (hp : p.index < h.size)
    (hold : old ≤ c.index) (hroot : h.superclass c = none) (hbelow : ¬ ReflTransGen h.Up p c) :
    Grows old h (h.place c p) where
  forest := F.place hc hp hroot hbelow
  size := (size_place c p).ge
  keeps d i hd hi := by
    have hne : d ≠ c := by
      rintro rfl
      omega
    rw [get?_place, hi, Option.map_some, if_neg hne]
    split
    · exact ⟨[c], rfl⟩
    · exact ⟨[], by rw [List.append_nil]⟩
  ivarType d n := by
    have := h.map_ivars_place c p d
    rw [ivarType, ivarType, ivars, ivars, this]

theorem Forest.addNames (ds : List ClassDecl) (F : h.Forest) (hold : old ≤ h.size) :
    Grows old h (h.addNames ds t).1 := by
  refine addNames_induction (motive := fun h' _ => Grows old h h') ?_ ds (.refl F)
  intro h' t' n span hg
  exact hg.trans (hg.forest.add (hold.trans hg.size) n span t')

theorem Forest.followClauses (old : Nat) (names : NameTable) (ds : List ClassDecl) (F : h.Forest) :
    Grows old h (h.followClauses old names ds).2 := by
  refine followClauses_induction (motive := Grows old h) ?_ ds (.refl F)
  intro h' c p hg hc hp hold hroot hbelow
  refine hg.trans (hg.forest.place_grows hc hp hold hroot fun habove => ?_)
  have hsize := Nat.zero_lt_of_lt hc
  exact Bool.eq_false_iff.1 hbelow ((hg.forest.isBelow_iff hsize).2 habove)

/-- Placing roots, each once, below the root of the tree. -/
theorem Forest.foldl_place (old : Nat) (cs : List ClassId) : ∀ {h : Hierarchy}, h.Forest →
    0 < old → h.superclass .object = none → cs.Nodup →
    (∀ c ∈ cs, old ≤ c.index ∧ c.index < h.size ∧ h.superclass c = none) →
    Grows old h (cs.foldl (fun h c => h.place c .object) h) := by
  induction cs with
  | nil => exact fun F _ _ _ _ => .refl F
  | cons c cs ih =>
    intro h F hold hobject hnodup hcs
    obtain ⟨hc, hcs⟩ := List.forall_mem_cons.1 hcs
    obtain ⟨hmem, hnodup⟩ := List.nodup_cons.1 hnodup
    have hne : ClassId.object ≠ c := by
      rintro rfl
      exact absurd hc.1 (Nat.not_le.2 hold)
    have hplace := F.place_grows (p := .object) hc.2.1 (Nat.zero_lt_of_lt hc.2.1) hc.1 hc.2.2
      fun habove => by
        rcases ReflTransGen.cases_head habove with he | ⟨q, hup, -⟩
        · exact hne he
        · cases hobject.symm.trans hup
    have hsup (d : ClassId) : (h.place c .object).superclass d =
        if d = c then some .object else h.superclass d := superclass_place hc.2.1
    refine hplace.trans (ih hplace.forest hold (by rw [hsup, if_neg hne, hobject]) hnodup ?_)
    intro d hd
    have hdc : d ≠ c := by
      rintro rfl
      exact hmem hd
    rw [size_place, hsup, if_neg hdc]
    exact hcs d hd

/-! ## One tree -/

/-- A forest with one root. -/
structure Rooted (h : Hierarchy) : Prop extends h.Forest where
  nonempty : 0 < h.size
  root : h.superclass .object = none
  placed : ∀ c : ClassId, c.index < h.size → c ≠ .object → h.superclass c ≠ none

namespace Rooted

variable (R : h.Rooted)
include R

/-- Every class is below the root. -/
theorem below_object (hc : c.index < h.size) : ReflTransGen h.Up c .object := by
  obtain ⟨n, hn⟩ := R.depth c
  induction hn with
  | @root c hroot =>
    by_cases he : c = .object
    · rw [he]
    · exact absurd hroot (R.placed c hc he)
  | up hup _ ih => exact .head hup (ih (R.lt_size _ _ hup))

/-- What is above the root is the root. -/
theorem eq_object (h : ReflTransGen h.Up .object c) : c = .object := by
  rcases ReflTransGen.cases_head h with he | ⟨p, hup, -⟩
  · exact he.symm
  · cases R.root.symm.trans hup

theorem isBelow_iff : h.isBelow c d = true ↔ ReflTransGen h.Up c d :=
  R.toForest.isBelow_iff R.nonempty

theorem getLast?_ancestors (hc : c.index < h.size) : (h.ancestors c).getLast? = some .object := by
  obtain ⟨n, hn⟩ := R.depth c
  obtain ⟨r, hr, hroot⟩ := hn.getLast?_chain (R.depth_lt_size hn R.nonempty)
  have habove := above_of_mem_chain (List.mem_of_getLast? hr)
  by_cases he : r = .object
  · rw [ancestors, hr, he]
  · exact absurd hroot (R.placed r (R.above_lt_size hc habove) he)

/-- Declaring classes. -/
theorem declare (names : NameTable) (ds : List ClassDecl) (t : TypeTable) :
    (h.declare names ds t).1.2.Rooted ∧ Grows h.size h (h.declare names ds t).1.2 := by
  have hadd := R.toForest.addNames ds (t := t) (Nat.le_refl h.size)
  have hfollow := hadd.forest.followClauses h.size names ds
  have hlinked := hadd.trans hfollow
  set linked := ((h.addNames ds t).1.followClauses h.size names ds).2 with hl
  have hroot : linked.superclass .object = none :=
    (hlinked.superclass R.nonempty R.nonempty).trans R.root
  have hnodup (q : ClassId → Bool) : (linked.ids.filter q).Nodup := by
    refine List.Nodup.filter _ (List.Nodup.map ?_ List.nodup_range)
    intro i j hij
    exact congrArg Handle.index hij
  have hplace : Grows h.size linked (linked.placeRest h.size) := by
    refine hlinked.forest.foldl_place h.size _ R.nonempty hroot (hnodup _) fun c hc => ?_
    simp only [List.mem_filter, mem_ids, Bool.and_eq_true, decide_eq_true_iff,
      Option.isNone_iff_eq_none] at hc
    exact ⟨hc.2.1, hc.1, hc.2.2⟩
  have hgrows := hlinked.trans hplace
  refine ⟨⟨hgrows.forest, Nat.lt_of_lt_of_le R.nonempty hgrows.size, ?_, ?_⟩, hgrows⟩
  · exact (hgrows.superclass R.nonempty R.nonempty).trans R.root
  · intro c hc hne
    show (linked.placeRest h.size).superclass c ≠ none
    rw [superclass_placeRest]
    split
    · exact Option.some_ne_none _
    · rename_i hplaced
      by_cases hold : c.index < h.size
      · rw [hlinked.superclass hold hold]
        exact R.placed c hold hne
      · intro hnone
        have hsize : (linked.placeRest h.size).size = linked.size :=
          foldl_place_induction (motive := fun h' => h'.size = linked.size)
            (fun _ c hh => (size_place c .object).trans hh) _ rfl
        exact hplaced ⟨hsize ▸ hc, Nat.le_of_not_lt hold, hnone⟩

/-- A class just below the root is below nothing else. -/
theorem not_isBelow (hc : h.superclass c = some .object) (hd : d ≠ c) (hne : d ≠ .object) :
    h.isBelow c d = false := by
  refine Bool.eq_false_iff.2 fun hbelow => ?_
  rcases ReflTransGen.cases_head (R.isBelow_iff.1 hbelow) with he | ⟨p, hup, habove⟩
  · exact hd he.symm
  · cases hc.symm.trans hup
    exact hne (R.eq_object habove)

/-- Collecting types of instance variables does not change the tree. -/
theorem modify_ivars (c : ClassId) (f : Map .name TypeId → Map .name TypeId) :
    (h.modify c fun i => { i with ivars := f i.ivars }).Rooted := by
  have htree := h.tree_modify_ivars c f
  set h' := h.modify c fun i => { i with ivars := f i.ivars } with hh'
  have hsize : h'.size = h.size := by rw [← size_tree, htree, size_tree]
  have hsup (c : ClassId) : h'.superclass c = h.superclass c := by
    rw [← superclass_tree, htree, superclass_tree]
  refine ⟨R.toForest.congr hsup (fun c => ?_) hsize.ge, hsize ▸ R.nonempty, ?_, ?_⟩
  · rw [← children_tree, htree, children_tree]
  · rw [hsup, R.root]
  · intro c hc
    rw [hsup]
    exact R.placed c (hsize ▸ hc)

end Rooted

/-! ## The predefined classes -/

/-- A tree whose classes are all just below the root. -/
structure Flat (h : Hierarchy) : Prop extends h.Rooted where
  superclass_eq : ∀ c : ClassId, c.index < h.size → c ≠ .object → h.superclass c = some .object

namespace Flat

/-- One more class just below the root. -/
theorem add_place (R : h.Flat) (hn : h.find? n = none) (t : TypeTable) :
    ((h.add n .dummy t).1.place ⟨h.size⟩ .object).Flat := by
  have hadd := R.toForest.add (Nat.le_refl h.size) n .dummy t
  obtain ⟨h', ha, hsize, hget⟩ := add_of_find?_none (t := t) hn .dummy
  rw [ha] at hadd ⊢
  dsimp only at hadd ⊢
  have hroot : h'.superclass .object = none :=
    (hadd.superclass R.nonempty R.nonempty).trans R.root
  have hnew : h'.superclass ⟨h.size⟩ = none := by
    rw [superclass, hget, if_pos rfl]
    rfl
  have hplace := hadd.forest.foldl_place h.size [⟨h.size⟩] R.nonempty hroot
    (List.nodup_singleton _) (by simp [hsize, hnew])
  have heq (c : ClassId) (hc : c.index < (h'.place ⟨h.size⟩ .object).size) (hne : c ≠ .object) :
      (h'.place ⟨h.size⟩ .object).superclass c = some .object := by
    rw [superclass_place (hsize ▸ Nat.lt_succ_self h.size)]
    split
    · rfl
    · rename_i hmem
      rw [size_place, hsize] at hc
      have hold : c.index < h.size := by
        have : c.index ≠ h.size := fun he => hmem (Handle.ext_index he)
        omega
      rw [hadd.superclass hold hold]
      exact R.superclass_eq c hold hne
  refine ⟨⟨hplace.forest, by rw [size_place, hsize]; omega, ?_, fun c hc hne => ?_⟩, heq⟩
  · exact (hplace.superclass R.nonempty (Nat.zero_lt_of_lt (hsize.ge))).trans hroot
  · rw [heq c hc hne]
    exact Option.some_ne_none _

/-- The root alone. -/
theorem add_empty (n : Name) (span : Span) (t : TypeTable) :
    ((⟨∅⟩ : Hierarchy).add n span t).1.Flat := by
  have F : (⟨∅⟩ : Hierarchy).Forest := by
    refine ⟨fun c => ⟨0, .root rfl⟩, fun _ _ => nofun, fun _ => List.nodup_nil, fun c d => ?_⟩
    exact ⟨nofun, nofun⟩
  have hadd := F.add (Nat.le_refl 0) n span t
  obtain ⟨h', ha, hsize, hget⟩ := add_of_find?_none (h := ⟨∅⟩) (t := t) (n := n) rfl span
  rw [ha] at hadd ⊢
  dsimp only at hadd ⊢
  have hone : h'.size = 1 := hsize
  have only (c : ClassId) (hc : c.index < h'.size) : c = .object :=
    Handle.ext_index (show c.index = 0 by omega)
  refine ⟨⟨hadd.forest, by omega, ?_, fun c hc hne => absurd (only c hc) hne⟩,
    fun c hc hne => absurd (only c hc) hne⟩
  rw [superclass, hget]
  rfl

/-- More classes go just below the root, one after the other. -/
theorem foldlM_place (ns : List Name) : ∀ {h : Hierarchy} {t : TypeTable}, h.Flat → t.WF →
    ns.Nodup → (∀ n ∈ ns, h.find? n = none) →
    (ns.foldlM (fun h n => do
      let c : ClassId := ⟨h.size⟩
      return (← h.add n .dummy).place c .object : Hierarchy → Name → StateM TypeTable Hierarchy)
        h t).1.Flat := by
  induction ns with
  | nil => exact fun R _ _ _ => R
  | cons n ns ih =>
    intro h t R H hnodup hns
    obtain ⟨hn, hns⟩ := List.forall_mem_cons.1 hns
    obtain ⟨hmem, hnodup⟩ := List.nodup_cons.1 hnodup
    obtain ⟨h', t', ht, hh, hd, -, -, hother⟩ := Hierarchy.add_place H hn
    have R' := R.add_place hn t
    rw [hh] at R'
    have := ih R' hd.wf hnodup fun m hm => hother m (fun he => hmem (he ▸ hm)) (hns m hm)
    rw [← hh, ← ht] at this
    exact this

end Flat

theorem initial_flat {core : CoreNames} {names : NameTable} (H : t.WF) (hc : core.Fits names) :
    (initial core t).1.Flat := by
  have ne {n m : Name} {s s' : String} (hn : names.Names s n) (hm : names.Names s' m)
      (hs : s ≠ s') : n ≠ m := fun h => hs (hn.text_unique (h ▸ hm))
  obtain ⟨hd, hnew⟩ := Declared.add (h := ⟨∅⟩) H core.object .dummy
  obtain ⟨-, -, hother⟩ := hnew rfl
  have none (m : Name) (hm : m ≠ core.object) :
      (add ⟨∅⟩ core.object .dummy t).1.find? m = Option.none :=
    Option.eq_none_iff_forall_ne_some.2 fun c => hother m c hm rfl
  have hnodup : [core.nil, core.bool, core.int, core.float].Nodup := by
    simp only [List.nodup_cons, List.mem_cons, List.not_mem_nil, or_false, not_or,
      not_false_eq_true, List.nodup_nil, and_true]
    exact ⟨⟨ne hc.nil hc.bool (by decide), ne hc.nil hc.int (by decide),
      ne hc.nil hc.float (by decide)⟩, ⟨ne hc.bool hc.int (by decide),
      ne hc.bool hc.float (by decide)⟩, ne hc.int hc.float (by decide)⟩
  have hall : ∀ n ∈ [core.nil, core.bool, core.int, core.float], n ≠ core.object := by
    intro n hn
    simp only [List.mem_cons, List.not_mem_nil, or_false] at hn
    rcases hn with rfl | rfl | rfl | rfl
    · exact ne hc.nil hc.object (by decide)
    · exact ne hc.bool hc.object (by decide)
    · exact ne hc.int hc.object (by decide)
    · exact ne hc.float hc.object (by decide)
  have R := Flat.add_empty core.object .dummy t
  have := R.foldlM_place _ hd.wf hnodup fun n hn => none n (hall n hn)
  rw [initial]
  exact this

/-- However classes are declared, the predefined ones stay just below the root. -/
theorem declare_initial {core : CoreNames} {names : NameTable} (H : t.WF) (hc : core.Fits names)
    (names' : NameTable) (ds : List ClassDecl) :
    ((initial core t).1.declare names' ds (initial core t).2).1.2.Rooted ∧
      ∀ c : ClassId, c.index < 5 → c ≠ .object →
        ((initial core t).1.declare names' ds (initial core t).2).1.2.superclass c =
          some .object := by
  have R := initial_flat H hc
  have hfive := (initial_declared H hc).2.five_le
  obtain ⟨hrooted, hgrows⟩ := R.toRooted.declare names' ds (initial core t).2
  refine ⟨hrooted, fun c hlt hne => ?_⟩
  have hold := hlt.trans_le hfive
  rw [hgrows.superclass hold hold]
  exact R.superclass_eq c hold hne

end Multimethod.Hierarchy
