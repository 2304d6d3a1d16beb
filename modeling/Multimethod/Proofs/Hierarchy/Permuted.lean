import Multimethod.Proofs.Hierarchy.Growth

/-!
# Classes declared in any order

Handles follow the order of the declarations, so what two orders lead to is compared by names. A
hierarchy in which all clauses hold shows that none of them fails, in whatever order they are
followed: at every step, what has been placed is placed as it is there (`Within`). So declarations
that are accepted are accepted in any order, and declare the same classes below the same ones
(`reachable_permuted`).
-/

namespace Multimethod.Hierarchy

open Relation TypeTable

variable {h h' k r : Hierarchy} {t : TypeTable} {c d p : ClassId} {n m : Name} {old : Nat}
  {names : NameTable} {decl : ClassDecl} {ds ds' : List ClassDecl}

/-! ## Superclasses by their names -/

/-- The name of the superclass of the class with a given name. -/
def superName (h : Hierarchy) (n : Name) : Option Name :=
  (h.find? n).bind fun c => (h.superclass c).map h.name

/-- `m` is the name of the superclass of the class with the name `n`. -/
def UpName (h : Hierarchy) (n m : Name) : Prop := h.superName n = some m

theorem superName_eq (hc : h.find? n = some c) : h.superName n = (h.superclass c).map h.name := by
  rw [superName, hc, Option.bind_some]

theorem upName_of_up (hup : h.Up c p) : h.UpName (h.name c) (h.name p) := by
  have hc : h.find? (h.name c) = some c := find?_iff.2 ⟨lt_size_of_up hup, rfl⟩
  rw [UpName, superName_eq hc, show h.superclass c = some p from hup, Option.map_some]

theorem UpName.exists_up (hup : h.UpName n m) :
    ∃ c p, h.find? n = some c ∧ h.Up c p ∧ h.name p = m := by
  obtain ⟨c, hc, hm⟩ := Option.bind_eq_some_iff.1 hup
  obtain ⟨p, hp, hpm⟩ := Option.map_eq_some_iff.1 hm
  exact ⟨c, p, hc, hp, hpm⟩

namespace Forest

variable (F : h.Forest)
include F

theorem exists_up (hup : h.UpName n m) :
    ∃ c p, h.find? n = some c ∧ h.find? m = some p ∧ h.Up c p := by
  obtain ⟨c, p, hc, hcp, hpm⟩ := hup.exists_up
  exact ⟨c, p, hc, find?_iff.2 ⟨F.lt_size c p hcp, hpm⟩, hcp⟩

/-- The way up leads through the same names. -/
theorem above_iff_names (hc : h.find? n = some c) (hd : h.find? m = some d) :
    ReflTransGen h.Up c d ↔ ReflTransGen h.UpName n m := by
  constructor
  · intro habove
    have hpath : ReflTransGen h.UpName (h.name c) (h.name d) :=
      habove.lift h.name fun _ _ => upName_of_up
    rwa [(find?_iff.1 hc).2, (find?_iff.1 hd).2] at hpath
  · intro hpath
    induction hpath using ReflTransGen.head_induction_on generalizing c with
    | refl =>
      cases hc.symm.trans hd
      exact .refl
    | head hup _ ih =>
      obtain ⟨c', p, hc', hp, hcp⟩ := F.exists_up hup
      cases hc.symm.trans hc'
      exact .head hcp (ih hp)

theorem acyclic_names (n : Name) : ¬ TransGen h.UpName n n := by
  intro hcycle
  obtain ⟨m, hup, hpath⟩ := TransGen.head'_iff.1 hcycle
  obtain ⟨c, p, hc, hp, hcp⟩ := F.exists_up hup
  exact F.acyclic c (.head' hcp ((F.above_iff_names hp hc).2 hpath))

end Forest

/-- What there was has its superclass by name. -/
theorem Keeps.superName (K : Keeps h h') (F : h.Forest) (hc : h.find? n = some c) :
    h'.superName n = h.superName n := by
  rw [superName_eq hc, superName_eq (K.find? hc), K.superclass c (find?_lt hc)]
  cases hs : h.superclass c with
  | none => rfl
  | some p => rw [Option.map_some, Option.map_some, K.name p (F.lt_size c p hs)]

/-! ## Placing classes -/

theorem name_place (c p d : ClassId) : (h.place c p).name d = h.name d := by
  rw [name, map_name_place, name]

theorem superName_place (hc : c.index < h.size) : (h.place c p).superName n =
    if h.find? n = some c then some (h.name p) else h.superName n := by
  cases hn : h.find? n with
  | none => simp [superName, find?_place, hn]
  | some d =>
    rw [superName_eq ((find?_place c p).trans hn), superName_eq hn, superclass_place hc,
      funext (name_place c p)]
    by_cases hdc : d = c
    · rw [if_pos hdc, if_pos (congrArg some hdc), Option.map_some]
    · rw [if_neg hdc, if_neg fun he => hdc (Option.some.inj he)]

/-- Clauses that are followed place only roots. -/
theorem UpName.followClauses (hup : h.UpName n m) (ds : List ClassDecl) :
    (h.followClauses old names ds).2.UpName n m := by
  refine followClauses_induction (motive := fun h => h.UpName n m) ?_ ds hup
  intro h c p hup hc _ _ hroot _
  have hn : h.find? n ≠ some c := by
    intro hn
    rw [UpName, superName_eq hn, hroot] at hup
    cases hup
  rw [UpName, superName_place hc, if_neg hn]
  exact hup

theorem find?_placeRest (old : Nat) (h : Hierarchy) (n : Name) :
    (h.placeRest old).find? n = h.find? n :=
  foldl_place_induction (motive := fun h' => h'.find? n = h.find? n)
    (fun _ c hh => (find?_place c .object).trans hh) _ rfl

theorem name_placeRest (old : Nat) (h : Hierarchy) (c : ClassId) :
    (h.placeRest old).name c = h.name c :=
  foldl_place_induction (motive := fun h' => h'.name c = h.name c)
    (fun _ d hh => (name_place d .object c).trans hh) _ rfl

/-- The superclass by name, once the classes that no clause has placed are below the root. -/
theorem superName_placeRest (hc : h.find? n = some c) : (h.placeRest old).superName n =
    if old ≤ c.index ∧ h.superclass c = none then some (h.name .object) else h.superName n := by
  rw [superName_eq ((find?_placeRest old h n).trans hc), superclass_placeRest, superName_eq hc,
    funext (name_placeRest old h)]
  by_cases hplaced : old ≤ c.index ∧ h.superclass c = none
  · rw [if_pos hplaced, if_pos ⟨find?_lt hc, hplaced⟩, Option.map_some]
  · rw [if_neg hplaced, if_neg fun hc => hplaced hc.2]

theorem UpName.placeRest (hup : h.UpName n m) (old : Nat) : (h.placeRest old).UpName n m := by
  obtain ⟨c, p, hc, hcp, -⟩ := hup.exists_up
  rw [UpName, superName_placeRest hc, if_neg]
  · exact hup
  · intro hplaced
    cases hplaced.2.symm.trans hcp

/-! ## Clauses that hold -/

/-- After clauses have been followed without complaint, all of them hold. -/
theorem followClauses_holds (hok : (h.followClauses old names ds).1 = []) :
    ∀ d ∈ ds, ∀ m, d.superclass = some m →
      (h.followClauses old names ds).2.UpName d.name m := by
  induction ds generalizing h with
  | nil =>
    intro d hd
    cases hd
  | cons d ds ih =>
    rw [followClauses_cons] at hok ⊢
    obtain ⟨hnone, hok⟩ := List.append_eq_nil_iff.1 hok
    intro d' hd' m hm
    rcases List.mem_cons.1 hd' with rfl | hd'
    · refine UpName.followClauses ?_ ds
      have hfollows := follow_follows old names h d'
      generalize h.follow old names d' = r at hfollows hnone ⊢
      cases hfollows with
      | absent hn => cases hn.symm.trans hm
      | same hn hc hp hup =>
        cases hn.symm.trans hm
        rw [UpName, superName_eq hc, hup, Option.map_some, (find?_iff.1 hp).2]
      | place hn hc hp =>
        cases hn.symm.trans hm
        rw [UpName, superName_place (find?_lt hc), if_pos hc, (find?_iff.1 hp).2]
      | failed => cases hnone
    · exact ih hok d' hd' m hm

/-- `k` has the classes of `r`, by their names, and places them, if at all, as `r` does. The first
`old` ones are placed. -/
structure Within (old : Nat) (k r : Hierarchy) : Prop where
  lt_size : ∀ c p, k.Up c p → p.index < k.size
  names : ∀ n, (k.find? n).isSome = (r.find? n).isSome
  superName : ∀ n m, k.UpName n m → r.UpName n m
  placed : ∀ n c, k.find? n = some c → c.index < old → k.superName n = r.superName n

namespace Within

theorem place (W : Within old k r) (hc : k.find? n = some c) (hp : k.find? m = some p)
    (hold : old ≤ c.index) (hup : r.UpName n m) : Within old (k.place c p) r where
  lt_size d q hdq := by
    rw [size_place]
    rw [Up, superclass_place (find?_lt hc)] at hdq
    split at hdq
    · cases hdq
      exact find?_lt hp
    · exact W.lt_size d q hdq
  names n := by rw [find?_place, W.names]
  superName n' m' hup' := by
    rw [UpName, superName_place (find?_lt hc)] at hup'
    split at hup'
    · rename_i hn'
      cases find?_inj hc hn'
      cases (find?_iff.1 hp).2.symm.trans (Option.some.inj hup')
      exact hup
    · exact W.superName n' m' hup'
  placed n' c' hc' hlt := by
    rw [find?_place] at hc'
    have hne : k.find? n' ≠ some c := by
      intro hn'
      cases hc'.symm.trans hn'
      exact absurd hlt (Nat.not_lt.2 hold)
    rw [superName_place (find?_lt hc), if_neg hne]
    exact W.placed n' c' hc' hlt

/-- There is no objection to a clause that holds. -/
theorem no_objection (W : Within old k r) (F : r.Forest) (hup : r.UpName decl.name m)
    {e : TypeError} : ¬ Objection old names k decl m e := by
  intro ho
  obtain ⟨c', p', hc', hp', -⟩ := F.exists_up hup
  cases ho with
  | unknown hnone =>
    rcases hnone with hnone | hnone
    · have := W.names decl.name
      rw [hnone, hc'] at this
      cases this
    · have := W.names m
      rw [hnone, hp'] at this
      cases this
  | @cyclic c p hc hp hold hroot hbelow =>
    -- The way up to the class would be there in `r` too, and the clause closes it to a cycle.
    have habove := above_of_mem_chain (isBelow_iff.1 hbelow)
    have hpath : ReflTransGen r.UpName (k.name p) (k.name c) :=
      habove.lift k.name fun _ _ hup => W.superName _ _ (upName_of_up hup)
    rw [(find?_iff.1 hc).2, (find?_iff.1 hp).2] at hpath
    exact F.acyclic_names decl.name (.head' hup hpath)
  | @mismatch c p hc hp hplaced hne =>
    have hupk : k.UpName decl.name m := by
      rcases hplaced with hlt | hsome
      · exact (W.placed _ c hc hlt).trans hup
      · obtain ⟨q, hq⟩ := Option.ne_none_iff_exists'.1 hsome
        have hk : k.UpName decl.name (k.name q) := by
          rw [UpName, superName_eq hc, hq, Option.map_some]
        cases Option.some.inj (hup.symm.trans (W.superName _ _ hk))
        exact hk
    obtain ⟨d, q, hd, hdq, hqm⟩ := hupk.exists_up
    cases hc.symm.trans hd
    have hq : k.find? m = some q := find?_iff.2 ⟨W.lt_size c q hdq, hqm⟩
    cases hp.symm.trans hq
    exact hne hdq

/-- A clause that holds is followed. -/
theorem follow (W : Within old k r) (F : r.Forest) (names : NameTable)
    (hclause : ∀ m, decl.superclass = some m → r.UpName decl.name m) :
    (k.follow old names decl).1 = none ∧ Within old (k.follow old names decl).2 r := by
  have hfollows := follow_follows old names k decl
  generalize k.follow old names decl = s at hfollows ⊢
  cases hfollows with
  | absent | same => exact ⟨rfl, W⟩
  | place hn hc hp hold => exact ⟨rfl, W.place hc hp hold (hclause _ hn)⟩
  | failed hn hobjection => exact absurd hobjection (W.no_objection F (hclause _ hn))

/-- Clauses that hold are followed without complaint. -/
theorem followClauses (W : Within old k r) (F : r.Forest) (names : NameTable)
    (hclauses : ∀ d ∈ ds, ∀ m, d.superclass = some m → r.UpName d.name m) :
    (k.followClauses old names ds).1 = [] ∧ Within old (k.followClauses old names ds).2 r := by
  induction ds generalizing k with
  | nil => exact ⟨rfl, W⟩
  | cons d ds ih =>
    obtain ⟨hd, hds⟩ := List.forall_mem_cons.1 hclauses
    obtain ⟨hnone, W'⟩ := W.follow F names hd
    rw [followClauses_cons, hnone]
    exact ih W' hds

end Within

/-! ## What the names are -/

theorem superclass_addNames (ds : List ClassDecl) (h : Hierarchy) (t : TypeTable) (c : ClassId) :
    (h.addNames ds t).1.superclass c = h.superclass c := by
  refine addNames_induction (motive := fun h' _ => h'.superclass c = h.superclass c) ?_ ds rfl
  intro h' t' n span hh
  exact (superclass_add n span t' c).trans hh

theorem isSome_find?_add (H : t.WF) (n : Name) (span : Span) (m : Name) :
    ((h.add n span t).1.find? m).isSome ↔ (h.find? m).isSome ∨ m = n := by
  obtain ⟨hd, hnew⟩ := Declared.add (h := h) H n span
  constructor
  · intro hm
    by_cases hmn : m = n
    · exact .inr hmn
    · left
      cases hm' : h.find? m with
      | some c => rfl
      | none =>
        obtain ⟨c, hc⟩ := Option.isSome_iff_exists.1 hm
        cases hn : h.find? n with
        | some d =>
          rw [add_of_find? hn, hm'] at hc
          cases hc
        | none => exact absurd hc ((hnew hn).2.2 m c hmn hm')
  · intro hm
    rcases hm with hm | rfl
    · obtain ⟨c, hc⟩ := Option.isSome_iff_exists.1 hm
      rw [hd.find? hc]
      rfl
    · cases hm' : h.find? m with
      | some c =>
        rw [hd.find? hm']
        rfl
      | none =>
        rw [(hnew hm').2.1]
        rfl

/-- The names of the classes do not depend on the order of the declarations. -/
theorem isSome_find?_addNames (ds : List ClassDecl) (H : t.WF) (n : Name) :
    ((h.addNames ds t).1.find? n).isSome ↔ (h.find? n).isSome ∨ n ∈ ds.map (·.name) := by
  induction ds generalizing h t with
  | nil =>
    show (h.find? n).isSome ↔ _
    simp
  | cons d ds ih =>
    have hd := (Declared.add (h := h) H d.name d.span).1
    have hds := ih (h := (h.add d.name d.span t).1) hd.wf
    rw [isSome_find?_add H] at hds
    rw [List.map_cons, List.mem_cons, ← or_assoc]
    exact hds

/-! ## Declaring -/

/-- The classes of some declarations, placed by their clauses, and what is reported. -/
def linked (h : Hierarchy) (names : NameTable) (ds : List ClassDecl) (t : TypeTable) :
    List TypeError × Hierarchy :=
  (h.addNames ds t).1.followClauses h.size names ds

theorem declare_eq (h : Hierarchy) (names : NameTable) (ds : List ClassDecl) (t : TypeTable) :
    (h.declare names ds t).1 = ((h.linked names ds t).1, (h.linked names ds t).2.placeRest h.size) :=
  rfl

theorem find?_linked (h : Hierarchy) (names : NameTable) (ds : List ClassDecl) (t : TypeTable)
    (n : Name) : (h.linked names ds t).2.find? n = (h.addNames ds t).1.find? n :=
  followClauses_induction (motive := fun h' => h'.find? n = (h.addNames ds t).1.find? n)
    (fun _ c p hh _ _ _ _ _ => (find?_place c p).trans hh) ds rfl

theorem find?_declare (h : Hierarchy) (names : NameTable) (ds : List ClassDecl) (t : TypeTable)
    (n : Name) : (h.declare names ds t).1.2.find? n = (h.addNames ds t).1.find? n :=
  (find?_placeRest _ _ n).trans (find?_linked h names ds t n)

namespace Rooted

variable (R : h.Rooted) (H : t.WF)
include R

theorem keeps_addNames (ds : List ClassDecl) (t : TypeTable) : Keeps h (h.addNames ds t).1 :=
  .of_grows (R.toForest.addNames ds (Nat.le_refl _))

theorem keeps_linked (names : NameTable) (ds : List ClassDecl) (t : TypeTable) :
    Keeps h (h.linked names ds t).2 := by
  have hadd := R.toForest.addNames ds (t := t) (Nat.le_refl h.size)
  exact .of_grows (hadd.trans (hadd.forest.followClauses h.size names ds))

/-- A class that no clause has placed is below the root, unless it was there before. -/
theorem superName_declare (names : NameTable) (ds : List ClassDecl) (t : TypeTable)
    (hnone : (h.linked names ds t).2.superName n = none) :
    (h.declare names ds t).1.2.superName n =
      if h.find? n = none ∧ ((h.declare names ds t).1.2.find? n).isSome then some (h.name .object)
      else none := by
  have K := R.keeps_linked names ds t
  rw [find?_declare, ← find?_linked h names ds t n, declare_eq]
  dsimp only
  cases hc : (h.linked names ds t).2.find? n with
  | none =>
    rw [superName, find?_placeRest, hc]
    simp
  | some c =>
    have hroot : (h.linked names ds t).2.superclass c = none := by
      rw [superName_eq hc] at hnone
      exact Option.map_eq_none_iff.1 hnone
    have hnew : h.size ≤ c.index ↔ h.find? n = none := by
      constructor
      · intro hle
        refine Option.eq_none_iff_forall_ne_some.2 fun d hd => ?_
        cases hc.symm.trans (K.find? hd)
        exact absurd (find?_lt hd) (Nat.not_lt.2 hle)
      · intro hn
        refine Nat.le_of_not_lt fun hlt => ?_
        cases hn.symm.trans (K.find?_of_lt hc hlt)
    rw [superName_placeRest hc, hnone, K.name .object R.nonempty]
    simp [hroot, hnew]

include H

/-- Where the classes come from what the declarations in another order have led to. -/
theorem within (names : NameTable) (hp : ds.Perm ds') :
    Within h.size (h.addNames ds' t).1 (h.declare names ds t).1.2 := by
  have K := R.keeps_addNames ds' t
  have K' := Keeps.of_grows (R.declare names ds t).2
  have placed (n : Name) (c : ClassId) (hc : (h.addNames ds' t).1.find? n = some c)
      (hlt : c.index < h.size) :
      (h.addNames ds' t).1.superName n = (h.declare names ds t).1.2.superName n := by
    have hold := K.find?_of_lt hc hlt
    rw [K.superName R.toForest hold, K'.superName R.toForest hold]
  refine ⟨(R.toForest.addNames ds' (Nat.le_refl h.size)).forest.lt_size, ?_, ?_, placed⟩
  · intro n
    rw [find?_declare, Bool.eq_iff_iff, isSome_find?_addNames ds' H, isSome_find?_addNames ds H,
      (hp.map _).mem_iff]
  · intro n m hup
    obtain ⟨c, p, hc, hcp, -⟩ := hup.exists_up
    have hlt : c.index < h.size := lt_size_of_up ((superclass_addNames ds' h t c).symm.trans hcp)
    exact (placed n c hc hlt).symm.trans hup

/-- What is declared without complaint is so in any order, and is placed alike. -/
theorem linked_permuted {names : NameTable} (hp : ds.Perm ds')
    (hok : (h.declare names ds t).1.1 = []) : (h.declare names ds' t).1.1 = [] ∧
      ∀ n m, (h.linked names ds' t).2.UpName n m → (h.declare names ds t).1.2.UpName n m := by
  have W := R.within H names hp
  obtain ⟨hok', W'⟩ := W.followClauses (R.declare names ds t).1.toForest names
    fun d hd m hm => UpName.placeRest (followClauses_holds hok d (hp.mem_iff.2 hd) m hm) h.size
  exact ⟨hok', W'.superName⟩

theorem superName_permuted {names : NameTable} (hp : ds.Perm ds')
    (hok : (h.declare names ds t).1.1 = []) (n : Name) :
    (h.declare names ds t).1.2.superName n = (h.declare names ds' t).1.2.superName n := by
  obtain ⟨hok', hlinked'⟩ := R.linked_permuted H hp hok
  obtain ⟨-, hlinked⟩ := R.linked_permuted H hp.symm hok'
  cases hn : (h.linked names ds t).2.superName n with
  | some m =>
    have hup : (h.declare names ds t).1.2.UpName n m := UpName.placeRest hn h.size
    exact hup.trans (hlinked n m hn).symm
  | none =>
    cases hn' : (h.linked names ds' t).2.superName n with
    | some m =>
      have hup : (h.declare names ds' t).1.2.UpName n m := UpName.placeRest hn' h.size
      exact (hlinked' n m hn').trans hup.symm
    | none =>
      have hnames := (R.within H names hp).names n
      rw [← find?_declare h names ds' t n] at hnames
      rw [R.superName_declare names ds t hn, R.superName_declare names ds' t hn', hnames]

end Rooted

/-- Two hierarchies with the same classes, placed alike, when these are told apart by their names. -/
structure SameByName (h h' : Hierarchy) : Prop where
  names : ∀ n, (h.find? n).isSome = (h'.find? n).isSome
  superName : ∀ n, h.superName n = h'.superName n
  isBelow : ∀ n m c d c' d', h.find? n = some c → h.find? m = some d → h'.find? n = some c' →
    h'.find? m = some d' → h.isBelow c d = h'.isBelow c' d'

theorem SameByName.of_superName (F : h.Forest) (F' : h'.Forest)
    (hnames : ∀ n, (h.find? n).isSome = (h'.find? n).isSome)
    (hsuper : ∀ n, h.superName n = h'.superName n) : SameByName h h' := by
  refine ⟨hnames, hsuper, ?_⟩
  intro n m c d c' d' hc hd hc' hd'
  have hup : h.UpName = h'.UpName := by
    funext n m
    rw [UpName, UpName, hsuper]
  rw [Bool.eq_iff_iff, F.isBelow_iff (Nat.zero_lt_of_lt (find?_lt hc)),
    F'.isBelow_iff (Nat.zero_lt_of_lt (find?_lt hc')), F.above_iff_names hc hd,
    F'.above_iff_names hc' hd', hup]

/-- Classes may be declared in any order: declarations of which none fails do not fail in another
order, and they declare the same classes, each below the same class. -/
theorem reachable_permuted (hr : Reachable h t) {names : NameTable} (hp : ds.Perm ds')
    (hok : (h.declare names ds t).1.1 = []) : (h.declare names ds' t).1.1 = [] ∧
      SameByName (h.declare names ds t).1.2 (h.declare names ds' t).1.2 := by
  have R := hr.described.rooted
  have H := hr.described.types
  refine ⟨(R.linked_permuted H hp hok).1, ?_⟩
  refine .of_superName (R.declare names ds t).1.toForest (R.declare names ds' t).1.toForest ?_ ?_
  · intro n
    rw [find?_declare h names ds' t n]
    exact ((R.within H names hp).names n).symm
  · exact R.superName_permuted H hp hok

/-- Classes before their superclasses, declared more than once, and one that was there before. -/
def unordered : List ClassDecl :=
  [⟨⟨11⟩, some ⟨12⟩, .dummy⟩, ⟨⟨9⟩, some ⟨10⟩, .dummy⟩, ⟨⟨12⟩, some ⟨9⟩, .dummy⟩,
    ⟨⟨11⟩, none, .dummy⟩, ⟨⟨12⟩, some ⟨9⟩, .dummy⟩]

/-- The other way round, the two new classes have each other's handles. -/
theorem reachable_permuted_reversed : Reachable crossed.1 crossed.2 ∧
    unordered.Perm unordered.reverse ∧ (crossed.1.declare {} unordered crossed.2).1.1 = [] ∧
      (crossed.1.declare {} unordered.reverse crossed.2).1.1 = [] ∧
        SameByName (crossed.1.declare {} unordered crossed.2).1.2
          (crossed.1.declare {} unordered.reverse crossed.2).1.2 ∧
        (crossed.1.declare {} unordered crossed.2).1.2.find? ⟨11⟩ = some ⟨7⟩ ∧
          (crossed.1.declare {} unordered.reverse crossed.2).1.2.find? ⟨11⟩ = some ⟨8⟩ := by
  have hp := unordered.reverse_perm.symm
  have hok : (crossed.1.declare {} unordered crossed.2).1.1 = [] := by decide +kernel
  obtain ⟨hok', hsame⟩ := reachable_permuted crossed_reachable hp hok
  exact ⟨crossed_reachable, hp, hok, hok', hsame, by decide +kernel⟩

end Multimethod.Hierarchy
