import Multimethod.Proofs.Hierarchy.Growth

/-!
# Assignments to instance variables

The type of an instance variable is the union of what has been assigned to it, so the order of the
assignments does not matter to its members. It does to the handle of the union, which tells when the
union was first described (`assignAll_swapped`). An assignment says whether it brought a new member,
and no other variable is touched, not even of the same name in a class above or below
(`history_collected`).
-/

namespace Multimethod.Hierarchy

open Relation TypeTable

variable {h h' h'' : Hierarchy} {t t' t'' u : TypeTable} {c : ClassId} {n : Name} {m : TypeId}

/-- Some type is assigned to an instance variable of a class. -/
structure Assignment where
  cls : ClassId
  name : Name
  type : TypeId

namespace Assignment

/-- The class and the type are there. -/
def Fits (h : Hierarchy) (t : TypeTable) (k : Assignment) : Prop :=
  k.cls.index < h.size ∧ t.Has k.type

instance (h : Hierarchy) (t : TypeTable) (k : Assignment) : Decidable (k.Fits h t) :=
  inferInstanceAs (Decidable (_ ∧ _))

/-- The variable to which something is assigned. -/
def To (k : Assignment) (c : ClassId) (n : Name) : Prop := k.cls = c ∧ k.name = n

/-- What comes of the assignment, and whether it changed the variable. -/
def run (k : Assignment) (h : Hierarchy) : StateM TypeTable (Bool × Hierarchy) :=
  h.assignIvar k.cls k.name k.type

end Assignment

variable {k : Assignment} {ks ls : List Assignment}

/-- What comes of some assignments, one after the other. -/
def assignAll (h : Hierarchy) : List Assignment → StateM TypeTable Hierarchy
  | [] => pure h
  | k :: ks => do
    let (_, h) ← k.run h
    h.assignAll ks

/-- The members of the types that an instance variable has been seen to hold. -/
def held (h : Hierarchy) (t : TypeTable) (c : ClassId) (n : Name) : List TypeId :=
  t.members ((h.ivarType c n).getD .never)

/-! ## Types of instance variables -/

/-- A hierarchy in which instance variables are listed only if they hold something. -/
structure Tidy (h : Hierarchy) (t : TypeTable) : Prop extends Described h t where
  ne_never : ∀ c n, h.ivarType c n ≠ some .never

namespace Tidy

theorem mono (D : Tidy h t) (hu : u.WF) (hle : t ≤ u) : Tidy h u :=
  ⟨D.toDescribed.mono hu hle, D.ne_never⟩

theorem held_mono (D : Tidy h t) (hle : t ≤ u) : h.held u c n = h.held t c n :=
  (D.has_ivarType c n).members_eq hle

theorem held_eq_nil (D : Tidy h t) : h.held t c n = [] ↔ h.ivarType c n = none := by
  rw [held, D.types.members_eq_nil (D.has_ivarType c n)]
  cases hi : h.ivarType c n with
  | none => simp
  | some a =>
    have hne : a ≠ .never := fun ha => D.ne_never c n (by rw [hi, ha])
    simp [hne]

theorem held_eq (D : Tidy h t) (D' : Tidy h' t')
    (hm : ∀ m, m ∈ h.held t c n ↔ m ∈ h'.held t' c n) : h.held t c n = h'.held t' c n :=
  Handle.eq_of_mem_iff D.types.pairwise_members D'.types.pairwise_members hm

/-- What a variable holds says whether and how it is listed. -/
theorem map_members_eq (D : Tidy h t) (D' : Tidy h' t')
    (hheld : h.held t c n = h'.held t' c n) :
    (h.ivarType c n).map t.members = (h'.ivarType c n).map t'.members := by
  have hnone : h.ivarType c n = none ↔ h'.ivarType c n = none := by
    rw [← D.held_eq_nil, ← D'.held_eq_nil, hheld]
  cases hi : h.ivarType c n with
  | none => rw [hnone.1 hi, Option.map_none, Option.map_none]
  | some a =>
    cases hi' : h'.ivarType c n with
    | none => cases hi.symm.trans (hnone.2 hi')
    | some b =>
      rw [held, held, hi, hi'] at hheld
      exact congrArg some hheld

/-- Where the types are the same, so is the entry. -/
theorem ivarType_eq (D : Tidy h t) (D' : Tidy h' t') (hle : t ≤ t')
    (hheld : h.held t c n = h'.held t' c n) : h.ivarType c n = h'.ivarType c n := by
  have hmap := (D.mono D'.types hle).map_members_eq D' ((D.held_mono hle).trans hheld)
  cases hi : h.ivarType c n with
  | none =>
    rw [hi, Option.map_none] at hmap
    exact (Option.map_eq_none_iff.1 hmap.symm).symm
  | some a =>
    rw [hi, Option.map_some] at hmap
    obtain ⟨b, hb, hmembers⟩ := Option.map_eq_some_iff.1 hmap.symm
    rw [hb, D'.types.ext_members ((D.ivars c n a hi).mono hle) (D'.ivars c n b hb) fun m => by
      rw [hmembers]]

end Tidy

/-- Hierarchies with the same tree and the same types of instance variables are the same. -/
theorem ext_ivarType (htree : h.tree = h'.tree) (hi : ∀ c n, h.ivarType c n = h'.ivarType c n) :
    h = h' := by
  suffices h.classes.entries = h'.classes.entries by
    obtain ⟨cs⟩ := h
    obtain ⟨cs'⟩ := h'
    exact congrArg Hierarchy.mk (Catalog.ext_entries this)
  apply Array.ext_getElem?
  intro i
  have hget : h.tree.get? ⟨i⟩ = h'.tree.get? ⟨i⟩ := by rw [htree]
  rw [get?_tree, get?_tree] at hget
  have hivars : h.ivars ⟨i⟩ = h'.ivars ⟨i⟩ := Std.ExtTreeMap.ext_getElem? fun n => hi ⟨i⟩ n
  simp only [ivars] at hivars
  show h.get? ⟨i⟩ = h'.get? ⟨i⟩
  cases hc : h.get? ⟨i⟩ with
  | none =>
    rw [hc, Option.map_none] at hget
    exact (Option.map_eq_none_iff.1 hget.symm).symm
  | some e =>
    rw [hc, Option.map_some] at hget
    obtain ⟨e', hc', he⟩ := Option.map_eq_some_iff.1 hget.symm
    rw [hc, hc'] at hivars
    obtain ⟨name, superclass, span, children, ivars⟩ := e
    obtain ⟨name', superclass', span', children', ivars'⟩ := e'
    simp_all

/-! ## What assignments do -/

/-- The assignments `ks`, and other changes, lead from `h` and `t` to `h'` and `t'`. -/
structure Adds (ks : List Assignment) (h : Hierarchy) (t : TypeTable) (h' : Hierarchy)
    (t' : TypeTable) : Prop where
  tidy : Tidy h' t'
  types : t ≤ t'
  has : ∀ k ∈ ks, t'.Has k.type
  mem_held : ∀ c n m, m ∈ h'.held t' c n ↔
    m ∈ h.held t c n ∨ ∃ k ∈ ks, k.To c n ∧ m ∈ t'.members k.type
  others : ∀ c n, (∀ k ∈ ks, ¬ k.To c n) → h'.ivarType c n = h.ivarType c n

namespace Adds

theorem refl (D : Tidy h t) : Adds [] h t h t where
  tidy := D
  types := le_refl t
  has := nofun
  mem_held := by simp
  others _ _ _ := rfl

theorem trans (A : Adds ks h t h' t') (B : Adds ls h' t' h'' t'') :
    Adds (ks ++ ls) h t h'' t'' where
  tidy := B.tidy
  types := le_trans A.types B.types
  has k hk := by
    rcases List.mem_append.1 hk with hk | hk
    · exact (A.has k hk).mono B.types
    · exact B.has k hk
  mem_held c n m := by
    rw [B.mem_held, A.mem_held, or_assoc]
    simp only [List.mem_append, or_and_right, exists_or]
    have hks : (∃ k ∈ ks, k.To c n ∧ m ∈ t'.members k.type) ↔
        ∃ k ∈ ks, k.To c n ∧ m ∈ t''.members k.type :=
      exists_congr fun k => and_congr_right fun hk => by rw [(A.has k hk).members_eq B.types]
    rw [hks]
  others c n hn := by
    have hn := List.forall_mem_append.1 hn
    rw [B.others c n hn.2, A.others c n hn.1]

/-- Any other change leaves the instance variables alone. -/
theorem step (A : Adds ks h t h' t') (hs : Step (h', t') (h'', t''))
    (hi : ∀ c n, h''.ivarType c n = h'.ivarType c n) : Adds ks h t h'' t'' := by
  have D := A.tidy
  have hle := hs.types_le D.toDescribed
  rw [← List.append_nil ks]
  apply A.trans
  exact {
    tidy := ⟨hs.described D.toDescribed, fun c n => by rw [hi]; exact D.ne_never c n⟩
    types := hle
    has := nofun
    mem_held := fun c n m => by rw [held, hi, ← held, D.held_mono hle]; simp
    others := fun c n _ => hi c n }

/-- A variable that nothing had been assigned to holds what has been assigned to it. -/
theorem mem_held_of_none (A : Adds ks h t h' t') (H : t.WF) (hnone : h.ivarType c n = none) :
    m ∈ h'.held t' c n ↔ ∃ k ∈ ks, k.To c n ∧ m ∈ t'.members k.type := by
  rw [A.mem_held, held, hnone, Option.getD_none, H.members_never]
  simp

theorem ivarType_eq_none (A : Adds ks h t h' t') (H : t.WF) (hnone : h.ivarType c n = none) :
    h'.ivarType c n = none ↔ ∀ k ∈ ks, k.To c n → k.type = .never := by
  rw [← A.tidy.held_eq_nil, List.eq_nil_iff_forall_not_mem]
  simp only [A.mem_held_of_none H hnone, not_exists, not_and]
  have empty (k : Assignment) (hk : k ∈ ks) :
      (∀ m, m ∉ t'.members k.type) ↔ k.type = .never := by
    rw [← A.tidy.types.members_eq_nil (A.has k hk), List.eq_nil_iff_forall_not_mem]
  constructor
  · exact fun h k hk hto => (empty k hk).1 fun m => h m k hk hto
  · exact fun h m k hk hto => (empty k hk).2 (h k hk hto) m

end Adds

/-! ### One assignment -/

theorem ivarType_run (hc : k.cls.index < h.size) (hn : ¬ k.To c n) :
    (k.run h t).1.2.ivarType c n = h.ivarType c n := by
  rw [Assignment.run, assignIvar_eq]
  dsimp only
  split
  · rfl
  · rw [ivarType_assign h hc, if_neg]
    rintro ⟨rfl, rfl⟩
    exact hn ⟨rfl, rfl⟩

theorem getD_ivarType_run (hc : k.cls.index < h.size) :
    ((k.run h t).1.2.ivarType k.cls k.name).getD .never =
      (TypeTable.union ((h.ivarType k.cls k.name).getD .never) k.type t).1 := by
  rw [Assignment.run, assignIvar_eq]
  dsimp only
  split
  · rename_i hsame
    exact hsame.symm
  · rw [ivarType_assign h hc, if_pos ⟨rfl, rfl⟩]
    rfl

theorem tree_run (k : Assignment) (h : Hierarchy) (t : TypeTable) :
    (k.run h t).1.2.tree = h.tree := tree_assignIvar h k.cls k.name k.type t

theorem size_run (k : Assignment) (h : Hierarchy) (t : TypeTable) :
    (k.run h t).1.2.size = h.size := size_assignIvar h k.cls k.name k.type t

theorem changed_run (k : Assignment) (h : Hierarchy) (t : TypeTable) : (k.run h t).1.1 = true ↔
    (TypeTable.union ((h.ivarType k.cls k.name).getD .never) k.type t).1 ≠
      (h.ivarType k.cls k.name).getD .never := by
  rw [Assignment.run, assignIvar_eq]
  dsimp only
  split
  · rename_i hsame
    simp [hsame]
  · rename_i hne
    simp [hne]

namespace Tidy

theorem ne_never_run (D : Tidy h t) (hk : k.Fits h t) (c : ClassId) (n : Name) :
    (k.run h t).1.2.ivarType c n ≠ some .never := by
  by_cases hto : k.To c n
  · obtain ⟨rfl, rfl⟩ := hto
    have hs := union_joins D.types (D.has_ivarType k.cls k.name) hk.2
    rw [Assignment.run, assignIvar_eq]
    dsimp only
    split
    · exact D.ne_never _ _
    · rename_i hne
      rw [ivarType_assign h hk.1, if_pos ⟨rfl, rfl⟩]
      intro hnever
      -- If the union were empty, so would be what the variable held, which then would not change.
      have hpost := hs.post
      rw [Option.some.inj hnever] at hpost hne
      exact hne (hpost.eq_never hs.wf).1.symm
  · rw [ivarType_run hk.1 hto]
    exact D.ne_never c n

/-- A variable holds what is assigned to it in addition to what it held. -/
theorem adds_run (D : Tidy h t) (hk : k.Fits h t) :
    Adds [k] h t (k.run h t).1.2 (k.run h t).2 := by
  have hs := union_settles D.types (D.has_ivarType k.cls k.name) hk.2
  have hstep := Step.assignIvar k.name hk.1 hk.2
  have htypes : (k.run h t).2 =
      (TypeTable.union ((h.ivarType k.cls k.name).getD .never) k.type t).2 := snd_assignIvar ..
  have hle : t ≤ (k.run h t).2 := htypes ▸ hs.le
  refine ⟨⟨hstep.described D.toDescribed, D.ne_never_run hk⟩, hle, ?_, ?_, ?_⟩
  · rintro _ (_ | ⟨_, ⟨⟩⟩)
    exact hk.2.mono hle
  · intro c n m
    simp only [List.mem_singleton, exists_eq_left]
    by_cases hto : k.To c n
    · obtain ⟨rfl, rfl⟩ := hto
      rw [held, getD_ivarType_run hk.1, htypes, hs.post.2, ← held, D.held_mono hs.le]
      simp [Assignment.To]
    · rw [held, ivarType_run hk.1 hto, ← held, D.held_mono hle]
      simp [hto]
  · intro c n hn
    exact ivarType_run hk.1 (hn k (.head _))

/-- An assignment changes a variable if and only if it brings a new member. -/
theorem changed_iff (D : Tidy h t) (hk : k.Fits h t) :
    (k.run h t).1.1 = true ↔ ∃ m ∈ t.members k.type, m ∉ h.held t k.cls k.name := by
  have hold := D.has_ivarType k.cls k.name
  have hs := union_settles D.types hold hk.2
  obtain ⟨hhas, hmem⟩ := hs.post
  rw [changed_run, not_iff_comm]
  simp only [not_exists, not_and, not_not]
  rw [← hk.2.members_eq hs.le, held, ← hold.members_eq hs.le]
  constructor
  · intro hall
    apply hs.wf.ext_members hhas (hold.mono hs.le)
    intro m
    rw [hmem]
    exact or_iff_left_of_imp (hall m)
  · intro hsame m hm
    have hnew := (hmem m).2 (.inr hm)
    rwa [hsame] at hnew

end Tidy

/-! ### Many assignments -/

theorem Assignment.Fits.mono (hk : k.Fits h t) (hsize : h.size ≤ h'.size) (hle : t ≤ t') :
    k.Fits h' t' := ⟨hk.1.trans_le hsize, hk.2.mono hle⟩

theorem assignAll_cons (k : Assignment) (ks : List Assignment) (h : Hierarchy) (t : TypeTable) :
    h.assignAll (k :: ks) t = (k.run h t).1.2.assignAll ks (k.run h t).2 := rfl

theorem tree_assignAll (ks : List Assignment) (h : Hierarchy) (t : TypeTable) :
    (h.assignAll ks t).1.tree = h.tree := by
  induction ks generalizing h t with
  | nil => rfl
  | cons k ks ih => rw [assignAll_cons, ih, tree_run]

namespace Tidy

theorem adds_assignAll (D : Tidy h t) (hks : ∀ k ∈ ks, k.Fits h t) :
    Adds ks h t (h.assignAll ks t).1 (h.assignAll ks t).2 := by
  induction ks generalizing h t with
  | nil => exact .refl D
  | cons k ks ih =>
    have A := D.adds_run (hks k (.head _))
    rw [assignAll_cons]
    exact A.trans (ih A.tidy fun l hl => (hks l (.tail _ hl)).mono (size_run k h t).ge A.types)

/-- Neither the order of assignments nor how often they are made tells in what variables hold. -/
theorem held_assignAll (D : Tidy h t) (hks : ∀ k ∈ ks, k.Fits h t) (hmem : ∀ k, k ∈ ks ↔ k ∈ ls)
    (hu : u.WF) (hle : t ≤ u) (c : ClassId) (n : Name) :
    (h.assignAll ks t).1.held (h.assignAll ks t).2 c n =
      (h.assignAll ls u).1.held (h.assignAll ls u).2 c n := by
  have A := D.adds_assignAll hks
  have B := (D.mono hu hle).adds_assignAll fun l hl =>
    (hks l ((hmem l).2 hl)).mono (Nat.le_refl _) hle
  apply A.tidy.held_eq B.tidy
  intro m
  rw [A.mem_held, B.mem_held, D.held_mono hle]
  have hadded : (∃ k ∈ ks, k.To c n ∧ m ∈ (h.assignAll ks t).2.members k.type) ↔
      ∃ k ∈ ls, k.To c n ∧ m ∈ (h.assignAll ls u).2.members k.type := by
    refine exists_congr fun k => ?_
    rw [hmem k]
    refine and_congr_right fun hk => ?_
    have hhas := (hks k ((hmem k).2 hk)).2
    rw [hhas.members_eq A.types, hhas.members_eq (le_trans hle B.types)]
  rw [hadded]

/-- In a table where all types have been described, assignments in any order give the same. -/
theorem assignAll_eq (D : Tidy h t) (hks : ∀ k ∈ ks, k.Fits h t) (hmem : ∀ k, k ∈ ks ↔ k ∈ ls)
    (hu : u.WF) (hle : (h.assignAll ks t).2 ≤ u) :
    (h.assignAll ls u).1 = (h.assignAll ks t).1 := by
  have A := D.adds_assignAll hks
  have hle' := le_trans A.types hle
  have B := (D.mono hu hle').adds_assignAll fun l hl =>
    (hks l ((hmem l).2 hl)).mono (Nat.le_refl _) hle'
  apply ext_ivarType
  · rw [tree_assignAll, tree_assignAll]
  · intro c n
    exact (A.tidy.ivarType_eq B.tidy (le_trans hle B.types)
      (D.held_assignAll hks hmem hu hle' c n)).symm

end Tidy

/-! ## Histories -/

/-- What is reached from the predefined classes, and all assignments made on the way. -/
inductive History : List Assignment → Hierarchy → TypeTable → Prop where
  | initial (names : NameTable) {t : TypeTable} (ht : t.Reachable) :
    History [] (Hierarchy.initial (CoreNames.intern names).1 t).1
      (Hierarchy.initial (CoreNames.intern names).1 t).2
  | describe {ks : List Assignment} {h : Hierarchy} {t : TypeTable} (H : History ks h t)
      {o : TypeTable.Op} (ho : o.Fits t) : History ks h (o.run t).2
  | declare {ks : List Assignment} {h : Hierarchy} {t : TypeTable} (H : History ks h t)
      (names : NameTable) (ds : List ClassDecl) :
    History ks (h.declare names ds t).1.2 (h.declare names ds t).2
  | assign {ks : List Assignment} {h : Hierarchy} {t : TypeTable} (H : History ks h t)
      {k : Assignment} (hk : k.Fits h t) :
    History (ks ++ [k]) (k.run h t).1.2 (k.run h t).2

/-- Everything that is reached has a history. -/
theorem Reachable.history (hr : Reachable h t) : ∃ ks, History ks h t := by
  obtain ⟨names, t₀, ht₀, hsteps⟩ := hr
  suffices ∀ y, ReflTransGen Step (initial (CoreNames.intern names).1 t₀) y →
      ∃ ks, History ks y.1 y.2 from this _ hsteps
  intro y hy
  induction hy with
  | refl => exact ⟨[], .initial names ht₀⟩
  | tail _ hstep ih =>
    obtain ⟨ks, hks⟩ := ih
    cases hstep with
    | describe ho => exact ⟨ks, hks.describe ho⟩
    | declare h t names ds => exact ⟨ks, hks.declare names ds⟩
    | @assignIvar h t c a n hc ha => exact ⟨ks ++ [⟨c, n, a⟩], hks.assign (k := ⟨c, n, a⟩) ⟨hc, ha⟩⟩

/-- All that variables hold has been assigned to them. -/
theorem History.adds (H : History ks h t) :
    ∃ h₀ t₀, t₀.WF ∧ (∀ c n, h₀.ivarType c n = none) ∧ Adds ks h₀ t₀ h t := by
  induction H with
  | initial names ht =>
    have hfits := (CoreNames.intern_fits names).2
    have hnone := ivarType_initial ht.wf hfits
    have D := initial_described ht.wf hfits
    exact ⟨_, _, D.types, hnone, .refl ⟨D, fun c n => by rw [hnone]; nofun⟩⟩
  | @describe _ h _ _ _ ho ih =>
    obtain ⟨h₀, t₀, H₀, hnone, A⟩ := ih
    exact ⟨h₀, t₀, H₀, hnone, A.step (Step.describe (h := h) ho) fun _ _ => rfl⟩
  | @declare _ h t _ names ds ih =>
    obtain ⟨h₀, t₀, H₀, hnone, A⟩ := ih
    have hgrows := (A.tidy.rooted.declare names ds t).2
    exact ⟨h₀, t₀, H₀, hnone, A.step (Step.declare h t names ds) hgrows.ivarType⟩
  | assign _ hk ih =>
    obtain ⟨h₀, t₀, H₀, hnone, A⟩ := ih
    exact ⟨h₀, t₀, H₀, hnone, A.trans (A.tidy.adds_run hk)⟩

theorem History.assignAll (H : History ks h t) (hls : ∀ l ∈ ls, l.Fits h t) :
    History (ks ++ ls) (h.assignAll ls t).1 (h.assignAll ls t).2 := by
  induction ls generalizing ks h t with
  | nil =>
    rw [List.append_nil]
    exact H
  | cons l ls ih =>
    obtain ⟨_, _, _, _, A⟩ := H.adds
    have hl := hls l (.head _)
    have hrest := ih (H.assign hl) fun k hk =>
      (hls k (.tail _ hk)).mono (size_run l h t).ge (A.tidy.adds_run hl).types
    rwa [List.append_assoc] at hrest

/-- Instance variables hold what has been assigned to them, in any order, and are listed if that is
anything. An assignment tells whether it brings something new and touches no other variable. In
whatever order assignments are made, the variables hold the same members; if the types of these
variables have been described before, the hierarchy is the same altogether. -/
structure Collected (ks : List Assignment) (h : Hierarchy) (t : TypeTable) : Prop where
  mem_held : ∀ c n m, m ∈ h.held t c n ↔ ∃ k ∈ ks, k.To c n ∧ m ∈ t.members k.type
  eq_none_iff : ∀ c n, h.ivarType c n = none ↔ ∀ k ∈ ks, k.To c n → k.type = .never
  changed_iff : ∀ k : Assignment, k.Fits h t →
    ((k.run h t).1.1 = true ↔ ∃ m ∈ t.members k.type, m ∉ h.held t k.cls k.name)
  others : ∀ k : Assignment, k.Fits h t → ∀ c n, ¬ k.To c n →
    (k.run h t).1.2.ivarType c n = h.ivarType c n
  reordered : ∀ ls, (∀ l ∈ ls, l.Fits h t) → ∀ ls', ls.Perm ls' →
    (∀ c n, ((h.assignAll ls' t).1.ivarType c n).map (h.assignAll ls' t).2.members =
      ((h.assignAll ls t).1.ivarType c n).map (h.assignAll ls t).2.members) ∧
    ∀ u, Later (h.assignAll ls t).2 u → (h.assignAll ls' u).1 = (h.assignAll ls t).1

/-- Whatever else happens, the types of instance variables are what has been assigned to these. -/
theorem history_collected (H : History ks h t) : Collected ks h t := by
  obtain ⟨h₀, t₀, H₀, hnone, A⟩ := H.adds
  have D := A.tidy
  constructor
  case mem_held => exact fun c n m => A.mem_held_of_none H₀ (hnone c n)
  case eq_none_iff => exact fun c n => A.ivarType_eq_none H₀ (hnone c n)
  case changed_iff => exact fun k hk => D.changed_iff hk
  case others => exact fun k hk c n hn => ivarType_run hk.1 hn
  case reordered =>
    intro ls hls ls' hperm
    have B := D.adds_assignAll hls
    have B' := D.adds_assignAll fun l hl => hls l (hperm.mem_iff.2 hl)
    constructor
    · intro c n
      have hheld := D.held_assignAll hls (fun _ => hperm.mem_iff) D.types (le_refl t) c n
      exact (B.tidy.map_members_eq B'.tidy hheld).symm
    · intro u hu
      obtain ⟨hwf, hle⟩ := hu.grows B.tidy.types
      exact D.assignAll_eq hls (fun _ => hperm.mem_iff) hwf hle

/-- Both kinds of numbers are assigned to a variable. -/
def toNumber : List Assignment := [⟨⟨5⟩, ⟨11⟩, .int⟩, ⟨⟨5⟩, ⟨11⟩, .float⟩]

/-- An integer and `nil` are assigned to another variable. -/
def toOptional : List Assignment := [⟨⟨5⟩, ⟨12⟩, .int⟩, ⟨⟨5⟩, ⟨12⟩, .nil⟩]

/-- The union that is described first gets the smaller handle, so reordered assignments do not give
the same types, only types with the same members. -/
theorem assignAll_swapped :
    let r := crossed.1.assignAll (toNumber ++ toOptional) crossed.2
    let r' := crossed.1.assignAll (toOptional ++ toNumber) crossed.2
    Reachable crossed.1 crossed.2 ∧ (∀ k ∈ toNumber ++ toOptional, k.Fits crossed.1 crossed.2) ∧
      (toNumber ++ toOptional).Perm (toOptional ++ toNumber) ∧ r.1 ≠ r'.1 ∧
      r.1.ivarType ⟨5⟩ ⟨11⟩ = some ⟨16⟩ ∧ r.1.ivarType ⟨5⟩ ⟨12⟩ = some ⟨17⟩ ∧
      r'.1.ivarType ⟨5⟩ ⟨11⟩ = some ⟨17⟩ ∧ r'.1.ivarType ⟨5⟩ ⟨12⟩ = some ⟨16⟩ ∧
      r.2.members ⟨16⟩ = [.int, .float] ∧ r'.2.members ⟨17⟩ = [.int, .float] := by
  have hne : (crossed.1.assignAll (toNumber ++ toOptional) crossed.2).1.ivarType ⟨5⟩ ⟨11⟩ ≠
      (crossed.1.assignAll (toOptional ++ toNumber) crossed.2).1.ivarType ⟨5⟩ ⟨11⟩ := by
    decide +kernel
  exact ⟨crossed_reachable, by decide +kernel, List.perm_append_comm, fun h => hne (by rw [h]),
    by decide +kernel⟩

/-- Both kinds of numbers are assigned to a variable of a class, the empty type to another one, and
`nil` to a variable of the same name in the superclass. -/
def numbersAndNil : List Assignment :=
  [⟨⟨5⟩, ⟨11⟩, .int⟩, ⟨⟨6⟩, ⟨11⟩, .nil⟩, ⟨⟨5⟩, ⟨12⟩, .never⟩, ⟨⟨5⟩, ⟨11⟩, .float⟩]

/-- What comes of these assignments. -/
def numbered : Hierarchy × TypeTable := crossed.1.assignAll numbersAndNil crossed.2

theorem numbered_history : History numbersAndNil numbered.1 numbered.2 := by
  have hcrossed : History [] crossed.1 crossed.2 :=
    (History.initial {} (t := .initial) .refl).declare {} (crossing ⟨9⟩ ⟨10⟩)
  exact hcrossed.assignAll (by decide +kernel)

/-- Each variable holds what has been assigned to it. -/
theorem history_collected_numbered : History numbersAndNil numbered.1 numbered.2 ∧
    Collected numbersAndNil numbered.1 numbered.2 ∧
    numbered.1.held numbered.2 ⟨5⟩ ⟨11⟩ = [.int, .float] ∧
    numbered.1.held numbered.2 ⟨6⟩ ⟨11⟩ = [.nil] ∧ numbered.1.ivarType ⟨5⟩ ⟨12⟩ = none :=
  ⟨numbered_history, history_collected numbered_history, by decide +kernel⟩

end Multimethod.Hierarchy
