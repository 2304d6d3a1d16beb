import Multimethod.Proofs.Hierarchy.Rooted

/-!
# Reachable hierarchies

A hierarchy and the table of its types are changed by declaring classes, by widening the types of
instance variables and by describing types (`Step`). Whatever is reached from the predefined classes
is one tree, in which classes are found by their names, and where declaring more classes leaves every
class where it is (`reachable_tree`).
-/

namespace Multimethod.Hierarchy

open Relation TypeTable

variable {h : Hierarchy} {t : TypeTable} {c : ClassId}

/-- A change to a hierarchy and its types. -/
inductive Step : Hierarchy × TypeTable → Hierarchy × TypeTable → Prop where
  | describe {h : Hierarchy} {t : TypeTable} {o : TypeTable.Op} (ho : o.Fits t) :
    Step (h, t) (h, (o.run t).2)
  | declare (h : Hierarchy) (t : TypeTable) (names : NameTable) (ds : List ClassDecl) :
    Step (h, t) ((h.declare names ds t).1.2, (h.declare names ds t).2)
  | assignIvar {h : Hierarchy} {t : TypeTable} {c : ClassId} {a : TypeId} (n : Name)
      (hc : c.index < h.size) (ha : t.Has a) :
    Step (h, t) ((h.assignIvar c n a t).1.2, (h.assignIvar c n a t).2)

/-- What is reached from the predefined classes, with the names that these have in some table. -/
def Reachable (h : Hierarchy) (t : TypeTable) : Prop :=
  ∃ names t₀, t₀.Reachable ∧
    ReflTransGen Step (initial (CoreNames.intern names).1 t₀) (h, t)

/-! ## What every step keeps -/

/-- One tree, whose instance variables have types of a well-formed table. -/
structure Described (h : Hierarchy) (t : TypeTable) : Prop where
  rooted : h.Rooted
  types : t.WF
  ivars : ∀ c n a, h.ivarType c n = some a → t.Has a

theorem Described.has_ivarType (D : Described h t) (c : ClassId) (n : Name) :
    t.Has ((h.ivarType c n).getD .never) := by
  cases hi : h.ivarType c n with
  | none => exact D.types.has_never
  | some a => exact D.ivars c n a hi

theorem Step.described {x y : Hierarchy × TypeTable} (hs : Step x y) (D : Described x.1 x.2) :
    Described y.1 y.2 := by
  cases hs with
  | describe ho =>
    have hs := TypeTable.Op.run_settles D.types ho
    exact ⟨D.rooted, hs.wf, fun c n a ha => (D.ivars c n a ha).mono hs.le⟩
  | declare h t names ds =>
    obtain ⟨hrooted, hgrows⟩ := D.rooted.declare names ds t
    have hd := Declared.declare (h := h) D.types names ds
    refine ⟨hrooted, hd.wf, fun c n a ha => ?_⟩
    exact (D.ivars c n a ((hgrows.ivarType c n).symm.trans ha)).mono hd.types
  | @assignIvar h t c a n hc ha =>
    have hs := union_settles D.types (D.has_ivarType c n) ha
    have old : Described h (TypeTable.union ((h.ivarType c n).getD .never) a t).2 :=
      ⟨D.rooted, hs.wf, fun c n a ha => (D.ivars c n a ha).mono hs.le⟩
    rw [assignIvar_eq]
    dsimp only
    split
    · exact old
    · refine ⟨D.rooted.modify_ivars c (·.insert n _), hs.wf, fun c' n' a' ha' => ?_⟩
      rw [ivarType_assign h hc] at ha'
      split at ha'
      · cases ha'
        exact hs.post.1
      · exact (D.ivars c' n' a' ha').mono hs.le

theorem Described.later {x y : Hierarchy × TypeTable} (hs : ReflTransGen Step x y)
    (D : Described x.1 x.2) : Described y.1 y.2 := by
  induction hs with
  | refl => exact D
  | tail _ hs ih => exact hs.described ih

/-- Nothing has been assigned to the instance variables of the predefined classes. -/
theorem ivarType_initial {core : CoreNames} {names : NameTable} (H : t.WF) (hc : core.Fits names)
    (c : ClassId) (n : Name) : (initial core t).1.ivarType c n = none := by
  have hempty := (initial_declared H hc).1.ivars fun c i hi => by cases hi
  rw [ivarType, ivars]
  cases hi : (initial core t).1.get? c with
  | none => simp
  | some i => simp [hempty c i hi]

theorem initial_described {core : CoreNames} {names : NameTable} (H : t.WF)
    (hc : core.Fits names) : Described (initial core t).1 (initial core t).2 := by
  refine ⟨(initial_flat H hc).toRooted, (initial_declared H hc).1.wf, fun c n a ha => ?_⟩
  rw [ivarType_initial H hc] at ha
  cases ha

theorem Reachable.described (hr : Reachable h t) : Described h t := by
  obtain ⟨names, t₀, ht₀, hsteps⟩ := hr
  exact Described.later hsteps (initial_described ht₀.wf (CoreNames.intern_fits names).2)

/-! ## The tree -/

/-- A tree whose classes are found by their names. -/
structure Tree (h : Hierarchy) : Prop where
  root : h.superclass .object = none
  superclass : ∀ c : ClassId, c.index < h.size → c ≠ .object →
    ∃ p, h.superclass c = some p ∧ p.index < h.size
  acyclic : ∀ c, ¬ TransGen h.Up c c
  ancestors : ∀ c : ClassId, c.index < h.size → (h.ancestors c).head? = some c ∧
    (h.ancestors c).IsChain h.Up ∧ (h.ancestors c).Nodup ∧
      (h.ancestors c).getLast? = some .object
  children : ∀ c, (h.children c).Nodup ∧ ∀ d, d ∈ h.children c ↔ h.superclass d = some c
  find?_iff : ∀ n c, h.find? n = some c ↔ c.index < h.size ∧ h.name c = n

theorem Rooted.tree (R : h.Rooted) : h.Tree where
  root := R.root
  superclass c hc hne := by
    obtain ⟨p, hp⟩ := Option.ne_none_iff_exists'.1 (R.placed c hc hne)
    exact ⟨p, hp, R.lt_size c p hp⟩
  acyclic := R.acyclic
  ancestors c hc := by
    obtain ⟨n, hn⟩ := R.depth c
    refine ⟨?_, isChain_chain, hn.nodup_chain, R.getLast?_ancestors hc⟩
    rw [Hierarchy.ancestors]
    obtain ⟨k, hk⟩ := Nat.exists_eq_add_of_lt R.nonempty
    rw [hk, chain]
    rfl
  children c := ⟨R.nodup c, R.mem_children c⟩
  find?_iff _ _ := Hierarchy.find?_iff

/-- Whatever has been declared, the classes are one tree, and declaring any more classes leaves every
class as it is, except that more classes may come below it. -/
theorem reachable_tree (hr : Reachable h t) : h.Tree ∧
    ∀ names ds c i, h.get? c = some i → ∃ cs,
      (h.declare names ds t).1.2.get? c = some { i with children := i.children ++ cs } := by
  have R := hr.described.rooted
  refine ⟨R.tree, fun names ds c i hi => ?_⟩
  exact (R.declare names ds t).2.keeps c i (Hierarchy.lt_size hi) hi

/-- The predefined classes with some more declared, and the table of their types. -/
def ofDecls (ds : List ClassDecl) : Hierarchy × TypeTable :=
  let s : Hierarchy × TypeTable := initial (CoreNames.intern {}).1 .initial
  let r := s.1.declare {} ds s.2
  (r.1.2, r.2)

theorem ofDecls_reachable (ds : List ClassDecl) : Reachable (ofDecls ds).1 (ofDecls ds).2 := by
  have hs := Step.declare (initial (CoreNames.intern {}).1 .initial).1
    (initial (CoreNames.intern {}).1 .initial).2 {} ds
  exact ⟨{}, .initial, .refl, .single hs⟩

/-- `class A < B` and `class B < A`, where `a` and `b` are the names. -/
def crossing (a b : Name) : List ClassDecl := [⟨a, some b, .dummy⟩, ⟨b, some a, .dummy⟩]

/-- The hierarchy with what they declare, and the table of its types. -/
def crossed : Hierarchy × TypeTable :=
  let s : Hierarchy × TypeTable := initial (CoreNames.intern {}).1 .initial
  let r := s.1.declare {} (crossing ⟨9⟩ ⟨10⟩) s.2
  (r.1.2, r.2)

theorem crossed_reachable : Reachable crossed.1 crossed.2 := ofDecls_reachable _

/-- The second clause is not followed. -/
theorem reachable_tree_crossed : Reachable crossed.1 crossed.2 ∧ crossed.1.Tree ∧
    crossed.1.ancestors ⟨5⟩ = [⟨5⟩, ⟨6⟩, .object] :=
  ⟨crossed_reachable, (reachable_tree crossed_reachable).1, by decide +kernel⟩

end Multimethod.Hierarchy
