import Multimethod.Hierarchy.Declare
import Multimethod.Hierarchy.Ivar
import Multimethod.Proofs.Name
import Multimethod.Proofs.Resolution.Settles

/-!
# Declared classes

However classes are declared, the predefined ones come first, no instance variable has a type yet,
and the types of all classes are described (`Hierarchy.Declared`).
-/

namespace Multimethod

open TypeTable

namespace Hierarchy

variable {h : Hierarchy} {t : TypeTable} {n m : Name} {c d : ClassId} {i : ClassInfo}

theorem find?_eq_some : h.find? n = some c ↔ ∃ i, h.get? c = some i ∧ i.name = n := by
  simp only [find?, Option.map_eq_some_iff, Catalog.find?_eq_some, get?]
  constructor
  · rintro ⟨j, ⟨i, hi, hk⟩, rfl⟩
    exact ⟨i, hi, Handle.ext_index (List.cons.inj hk).1⟩
  · rintro ⟨i, hi, rfl⟩
    exact ⟨c.index, ⟨i, hi, rfl⟩, rfl⟩

/-- A class has one name. -/
theorem find?_inj (hn : h.find? n = some c) (hm : h.find? m = some c) : n = m := by
  obtain ⟨i, hi, rfl⟩ := find?_eq_some.1 hn
  obtain ⟨j, hj, rfl⟩ := find?_eq_some.1 hm
  cases hi.symm.trans hj
  rfl

theorem lt_size (hi : h.get? c = some i) : c.index < h.size :=
  (Array.getElem?_eq_some_iff.1 hi).1

theorem find?_lt (hc : h.find? n = some c) : c.index < h.size := by
  obtain ⟨i, hi, -⟩ := find?_eq_some.1 hc
  exact lt_size hi

theorem mem_ids : c ∈ h.ids ↔ c.index < h.size := by
  simp only [ids, List.mem_map, List.mem_range]
  exact ⟨by rintro ⟨_, hlt, rfl⟩; exact hlt, fun hlt => ⟨c.index, hlt, rfl⟩⟩

/-- What is no class is below nothing else. -/
theorem eq_of_isBelow (hc : h.size ≤ c.index) (hd : h.isBelow c d = true) : c = d := by
  have hnone : h.superclass c = none := by
    rw [superclass, show h.get? c = none from Array.getElem?_eq_none hc]
    rfl
  rw [isBelow] at hd
  cases hs : h.size with
  | zero => simp [hs, reaches] at hd
  | succ n => simpa [hs, reaches, hnone] using hd

theorem name_eq (hi : h.get? c = some i) : h.name c = i.name := by simp [name, hi]

theorem find?_iff : h.find? n = some c ↔ c.index < h.size ∧ h.name c = n := by
  rw [find?_eq_some]
  constructor
  · rintro ⟨i, hi, rfl⟩
    exact ⟨lt_size hi, name_eq hi⟩
  · rintro ⟨hc, rfl⟩
    obtain ⟨i, hi⟩ : ∃ i, h.get? c = some i := ⟨_, Array.getElem?_eq_getElem hc⟩
    exact ⟨i, hi, (name_eq hi).symm⟩

/-! ## Adding and placing a class -/

theorem add_of_find? (hf : h.find? n = some c) (span : Span) : h.add n span t = (h, t) := by
  simp only [find?, Option.map_eq_some_iff] at hf
  obtain ⟨j, hj, rfl⟩ := hf
  have : h.add n span = pure h := by
    unfold add
    split
    · rfl
    · simp_all
  rw [this]
  rfl

theorem add_of_find?_none (hf : h.find? n = none) (span : Span) :
    ∃ h', h.add n span t = (h', ((TypeTable.classObject ⟨h.size⟩)
        ((TypeTable.exact ⟨h.size⟩) t).2).2) ∧ h'.size = h.size + 1 ∧
      ∀ c : ClassId, h'.get? c = if c.index = h.size then some ⟨n, none, span, [], ∅⟩
        else h.get? c := by
  have hn : h.classes.find? [n.index] = none := by simpa [find?] using hf
  refine ⟨⟨h.classes.push ⟨n, none, span, [], ∅⟩ hn⟩, ?_, ?_, fun c => ?_⟩
  · have : h.add n span = (do
        let _ ← TypeTable.exact ⟨h.size⟩
        let _ ← TypeTable.classObject ⟨h.size⟩
        return ⟨h.classes.push ⟨n, none, span, [], ∅⟩ hn⟩) := by
      unfold add
      split
      · simp_all
      · rfl
    rw [this]
    rfl
  · simp [size, Catalog.size, Catalog.push]
  · exact Array.getElem?_push

theorem get?_place (c p d : ClassId) : (h.place c p).get? d = (h.get? d).map fun i =>
    { i with
      superclass := if d = c then some p else i.superclass
      children := if d = p then i.children ++ [c] else i.children } := by
  have hmod (h : Hierarchy) (c d : ClassId) (f : ClassInfo → ClassInfo)
      (hf : ∀ i, (f i).name = i.name) :
      (h.modify c f hf).get? d = (h.get? d).map fun i => if d = c then f i else i := by
    simp only [modify, get?, Catalog.modify, Catalog.get?, Array.getElem?_modify]
    by_cases hs : c.index = d.index
    · have hs' : d = c := Handle.ext_index hs.symm
      simp [hs']
    · have hs' : d ≠ c := fun h => hs (congrArg Handle.index h.symm)
      simp [hs, hs']
  rw [place, hmod, hmod, Option.map_map]
  cases h.get? d with
  | none => rfl
  | some i =>
    simp only [Option.map_some, Function.comp_apply]
    split <;> split <;> rfl

@[simp] theorem size_place (c p : ClassId) : (h.place c p).size = h.size := by
  simp [place, modify, size, Catalog.modify, Catalog.size]

/-- Which name a class has stays the same. -/
theorem map_name_place (c p d : ClassId) :
    ((h.place c p).get? d).map (·.name) = (h.get? d).map (·.name) := by
  simp [get?_place, Function.comp_def]

theorem map_ivars_place (c p d : ClassId) :
    ((h.place c p).get? d).map (·.ivars) = (h.get? d).map (·.ivars) := by
  simp [get?_place, Function.comp_def]

/-! ## Following clauses -/

section

variable {h' : Hierarchy} {old : Nat} {names : NameTable} {decl : ClassDecl} {e : TypeError}

/-- What following a clause does: it repeats what is known, or it places a new class below one that
is not below it. -/
theorem followClause_ok (hok : h.followClause old names decl n = .ok h') :
    ∃ c p, h.find? decl.name = some c ∧ h.find? n = some p ∧
      (h.superclass c = some p ∧ h' = h ∨
        old ≤ c.index ∧ h.superclass c = none ∧ h.isBelow p c = false ∧ h' = h.place c p) := by
  unfold followClause at hok
  split at hok
  · rename_i c p hc hp
    refine ⟨c, p, hc, hp, ?_⟩
    split at hok
    · rename_i hold hnone
      split at hok
      · cases hok
      · rename_i hbelow
        cases hok
        exact .inr ⟨of_decide_eq_true hold, hnone, Bool.eq_false_iff.2 hbelow, rfl⟩
    · split at hok
      · rename_i hsame
        cases hok
        exact .inl ⟨hsame, rfl⟩
      · cases hok
  · cases hok

/-- Why a clause is not followed: a class is unknown, it would be above itself, or it has another
superclass already. -/
inductive Objection (old : Nat) (names : NameTable) (h : Hierarchy) (decl : ClassDecl) (n : Name) :
    TypeError → Prop where
  | unknown (hnone : h.find? decl.name = none ∨ h.find? n = none) :
    Objection old names h decl n ⟨.unknownType (names.text n), decl.span⟩
  | cyclic {c p : ClassId} (hc : h.find? decl.name = some c) (hp : h.find? n = some p)
      (hold : old ≤ c.index) (hroot : h.superclass c = none) (hbelow : h.isBelow p c = true) :
    Objection old names h decl n
      ⟨.cyclicInheritance (names.text decl.name) (names.text n), decl.span⟩
  | mismatch {c p : ClassId} (hc : h.find? decl.name = some c) (hp : h.find? n = some p)
      (hplaced : c.index < old ∨ h.superclass c ≠ none) (hne : h.superclass c ≠ some p) :
    Objection old names h decl n ⟨.superclassMismatch (names.text decl.name)
      (((h.superclass c).map fun q => names.text (h.name q)).getD "<none>") (names.text n),
      decl.span⟩

theorem followClause_error (herr : h.followClause old names decl n = .error e) :
    Objection old names h decl n e := by
  unfold followClause at herr
  split at herr
  · rename_i c p hc hp
    split at herr
    · rename_i hold hnone
      split at herr
      · rename_i hbelow
        cases herr
        exact .cyclic hc hp (of_decide_eq_true hold) hnone hbelow
      · cases herr
    · rename_i hplaced
      split at herr
      · cases herr
      · rename_i hne
        cases herr
        refine .mismatch hc hp ?_ hne
        by_cases hold : old ≤ c.index
        · exact .inr (hplaced (decide_eq_true hold))
        · exact .inl (Nat.lt_of_not_le hold)
  · rename_i hnone
    cases herr
    refine .unknown ?_
    cases hc : h.find? decl.name with
    | none => exact .inl rfl
    | some c =>
      refine .inr (Option.eq_none_iff_forall_ne_some.2 fun p hp => hnone c p hc hp)

/-- What following the clause of a declaration, if it has one, reports and leads to. -/
def follow (old : Nat) (names : NameTable) (h : Hierarchy) (decl : ClassDecl) :
    Option TypeError × Hierarchy :=
  match decl.superclass with
  | none => (none, h)
  | some superName =>
    match h.followClause old names decl superName with
    | .ok h => (none, h)
    | .error e => (some e, h)

theorem followClauses_cons (ds : List ClassDecl) : h.followClauses old names (decl :: ds) =
    ((h.follow old names decl).1.toList ++
      ((h.follow old names decl).2.followClauses old names ds).1,
      ((h.follow old names decl).2.followClauses old names ds).2) := by
  cases hn : decl.superclass with
  | none => simp [followClauses, follow, hn]
  | some n => cases hf : h.followClause old names decl n <;> simp [followClauses, follow, hn, hf]

/-- What following the clause of a declaration can do. -/
inductive Follows (old : Nat) (names : NameTable) (h : Hierarchy) (decl : ClassDecl) :
    Option TypeError × Hierarchy → Prop where
  | absent (hn : decl.superclass = none) : Follows old names h decl (none, h)
  | same {n : Name} {c p : ClassId} (hn : decl.superclass = some n)
      (hc : h.find? decl.name = some c) (hp : h.find? n = some p) (hup : h.superclass c = some p) :
    Follows old names h decl (none, h)
  | place {n : Name} {c p : ClassId} (hn : decl.superclass = some n)
      (hc : h.find? decl.name = some c) (hp : h.find? n = some p) (hold : old ≤ c.index)
      (hroot : h.superclass c = none) (hbelow : h.isBelow p c = false) :
    Follows old names h decl (none, h.place c p)
  | failed {n : Name} {e : TypeError} (hn : decl.superclass = some n)
      (hobjection : Objection old names h decl n e) : Follows old names h decl (some e, h)

theorem follow_follows (old : Nat) (names : NameTable) (h : Hierarchy) (decl : ClassDecl) :
    Follows old names h decl (h.follow old names decl) := by
  unfold follow
  split
  · exact .absent ‹_›
  · rename_i n hn
    split
    · rename_i hok
      obtain ⟨c, p, hc, hp, ⟨hup, rfl⟩ | ⟨hold, hroot, hbelow, rfl⟩⟩ := followClause_ok hok
      · exact .same hn hc hp hup
      · exact .place hn hc hp hold hroot hbelow
    · rename_i herr
      exact .failed hn (followClause_error herr)

/-- What holds of a hierarchy, and still does when a root that is not old is placed below what is not
below it, holds once clauses are followed. -/
theorem followClauses_induction {motive : Hierarchy → Prop}
    (place : ∀ (h : Hierarchy) (c p : ClassId), motive h → c.index < h.size → p.index < h.size →
      old ≤ c.index → h.superclass c = none → h.isBelow p c = false → motive (h.place c p))
    (ds : List ClassDecl) (hh : motive h) : motive (h.followClauses old names ds).2 := by
  induction ds generalizing h with
  | nil => exact hh
  | cons d ds ih =>
    rw [followClauses_cons]
    apply ih
    have hfollows := follow_follows old names h d
    generalize h.follow old names d = r at hfollows ⊢
    cases hfollows with
    | absent | same | failed => exact hh
    | place hn hc hp hold hroot hbelow =>
      exact place h _ _ hh (find?_lt hc) (find?_lt hp) hold hroot hbelow

end

theorem foldl_place_induction {motive : Hierarchy → Prop} {p : ClassId}
    (place : ∀ (h : Hierarchy) (c : ClassId), motive h → motive (h.place c p))
    (cs : List ClassId) (hh : motive h) : motive (cs.foldl (fun h c => h.place c p) h) := by
  induction cs generalizing h with
  | nil => exact hh
  | cons c cs ih => exact ih (place h c hh)

/-- Once all names are classes, declaring does nothing but place classes. -/
theorem link_induction {motive : Hierarchy → Prop}
    (place : ∀ (h : Hierarchy) (c p : ClassId), motive h → motive (h.place c p))
    (old old' : Nat) (names : NameTable) (ds : List ClassDecl) (hh : motive h) :
    motive (placeRest old (h.followClauses old' names ds).2) := by
  apply foldl_place_induction
  · exact fun h c => place h c .object
  · exact followClauses_induction (fun h c p hh _ _ _ _ _ => place h c p hh) ds hh

/-- What holds of a hierarchy and its types, and still does after a class is added, holds once the
names have become classes. -/
theorem addNames_induction {motive : Hierarchy → TypeTable → Prop}
    (add : ∀ (h : Hierarchy) (t : TypeTable) (n : Name) (span : Span), motive h t →
      motive (h.add n span t).1 (h.add n span t).2)
    (ds : List ClassDecl) (hh : motive h t) : motive (h.addNames ds t).1 (h.addNames ds t).2 := by
  induction ds generalizing h t with
  | nil => exact hh
  | cons d ds ih => exact ih (add h t d.name d.span hh)

/-- Declaring does nothing but add and place classes. -/
theorem declare_induction {motive : Hierarchy → TypeTable → Prop}
    (add : ∀ (h : Hierarchy) (t : TypeTable) (n : Name) (span : Span), motive h t →
      motive (h.add n span t).1 (h.add n span t).2)
    (place : ∀ (h : Hierarchy) (t : TypeTable) (c p : ClassId), motive h t →
      motive (h.place c p) t)
    (names : NameTable) (ds : List ClassDecl) (hh : motive h t) :
    motive (h.declare names ds t).1.2 (h.declare names ds t).2 :=
  link_induction (motive := fun h' => motive h' (h.addNames ds t).2) (fun h' => place h' _)
    h.size h.size names ds (addNames_induction add ds hh)

/-- The predefined classes are added and placed too. -/
theorem initial_induction {motive : Hierarchy → TypeTable → Prop}
    (add : ∀ (h : Hierarchy) (t : TypeTable) (n : Name) (span : Span), motive h t →
      motive (h.add n span t).1 (h.add n span t).2)
    (place : ∀ (h : Hierarchy) (t : TypeTable) (c p : ClassId), motive h t →
      motive (h.place c p) t)
    (core : CoreNames) (hh : motive ⟨∅⟩ t) : motive (initial core t).1 (initial core t).2 := by
  have go (ns : List Name) {h : Hierarchy} {t : TypeTable} (hh : motive h t) :
      let s := (ns.foldlM (fun h n => do
        let c : ClassId := ⟨h.size⟩
        return (← h.add n .dummy).place c .object) h : StateM TypeTable Hierarchy) t
      motive s.1 s.2 := by
    induction ns generalizing h t with
    | nil => exact hh
    | cons n ns ih => exact ih (place _ _ ⟨h.size⟩ .object (add h t n .dummy hh))
  exact go _ (add ⟨∅⟩ t core.object .dummy hh)

/-! ## Hierarchies under construction -/

/-- Every class keeps its name, and no instance variable has a type. -/
structure Declared (h : Hierarchy) (t : TypeTable) (h' : Hierarchy) (t' : TypeTable) : Prop where
  wf : t'.WF
  types : t ≤ t'
  size : h.size ≤ h'.size
  names : ∀ c i, h.get? c = some i → ∃ j, h'.get? c = some j ∧ j.name = i.name
  ivars : (∀ c i, h.get? c = some i → i.ivars = ∅) → ∀ c i, h'.get? c = some i → i.ivars = ∅

namespace Declared

variable {h' h'' : Hierarchy} {t' t'' : TypeTable}

theorem refl (H : t.WF) : Declared h t h t :=
  ⟨H, le_refl t, Nat.le_refl _, fun _ i hi => ⟨i, hi, rfl⟩, id⟩

theorem trans (H : Declared h t h' t') (H' : Declared h' t' h'' t'') : Declared h t h'' t'' where
  wf := H'.wf
  types := le_trans H.types H'.types
  size := H.size.trans H'.size
  names c i hi := by
    obtain ⟨j, hj, hn⟩ := H.names c i hi
    obtain ⟨k, hk, hn'⟩ := H'.names c j hj
    exact ⟨k, hk, hn'.trans hn⟩
  ivars hi := H'.ivars (H.ivars hi)

theorem find? (H : Declared h t h' t') (hf : h.find? n = some c) : h'.find? n = some c := by
  obtain ⟨i, hi, hn⟩ := find?_eq_some.1 hf
  obtain ⟨j, hj, hn'⟩ := H.names c i hi
  exact find?_eq_some.2 ⟨j, hj, hn'.trans hn⟩

theorem add (H : t.WF) (n : Name) (span : Span) :
    Declared h t (h.add n span t).1 (h.add n span t).2 ∧
      (h.find? n = none → (h.add n span t).1.size = h.size + 1 ∧
        (h.add n span t).1.find? n = some ⟨h.size⟩ ∧
        ∀ m c, m ≠ n → h.find? m = none → (h.add n span t).1.find? m ≠ some c) := by
  cases hf : h.find? n with
  | some c =>
    rw [add_of_find? hf]
    exact ⟨refl H, nofun⟩
  | none =>
    obtain ⟨h', hadd, hsize, hget⟩ := add_of_find?_none (t := t) hf span
    have hs := (exact_settles H ⟨h.size⟩).bind fun _ u hu _ _ => classObject_settles hu ⟨h.size⟩
    rw [hadd]
    have old {c : ClassId} {i : ClassInfo} (hi : h.get? c = some i) : h'.get? c = some i := by
      rw [hget, if_neg (Nat.ne_of_lt (lt_size hi)), hi]
    refine ⟨⟨hs.wf, hs.le, hsize ▸ Nat.le_succ _, fun c i hi => ⟨i, old hi, rfl⟩, fun hi c j hj => ?_⟩,
      fun _ => ⟨hsize, ?_, fun m c hmn hm hc => ?_⟩⟩
    · rw [hget] at hj
      split at hj
      · cases hj; rfl
      · exact hi c j hj
    · exact find?_eq_some.2 ⟨_, by rw [hget, if_pos rfl], rfl⟩
    · obtain ⟨i, hi, hin⟩ := find?_eq_some.1 hc
      rw [hget] at hi
      split at hi
      · cases hi
        exact hmn hin.symm
      · rw [find?_eq_some.2 ⟨i, hi, hin⟩] at hm
        cases hm

theorem place (H : t.WF) (c p : ClassId) : Declared h t (h.place c p) t where
  wf := H
  types := le_refl t
  size := (size_place c p).ge
  names d i hi := by
    have := h.map_name_place c p d
    rw [hi, Option.map_some, Option.map_eq_some_iff] at this
    exact this
  ivars hi d j hj := by
    have := h.map_ivars_place c p d
    rw [hj, Option.map_some] at this
    obtain ⟨i, hi', he⟩ := Option.map_eq_some_iff.1 this.symm
    rw [← he]
    exact hi d i hi'

/-- Declaring classes. -/
theorem declare (H : t.WF) (names : NameTable) (ds : List ClassDecl) :
    Declared h t (h.declare names ds t).1.2 (h.declare names ds t).2 :=
  declare_induction (motive := Declared h t)
    (fun _ _ n span hd => hd.trans (add hd.wf n span).1)
    (fun _ _ c p hd => hd.trans (place hd.wf c p)) names ds (refl H)

end Declared

/-- No complaint about a declaration is that a limit was reached. -/
theorem followClauses_errors (old : Nat) (names : NameTable) (ds : List ClassDecl) :
    ∀ h : Hierarchy, ∀ e ∈ (h.followClauses old names ds).1, ¬ e.IsDivergence := by
  induction ds with
  | nil => exact fun h e he => by cases he
  | cons d ds ih =>
    intro h e he
    rw [followClauses_cons] at he
    rcases List.mem_append.1 he with he | he
    · have hfollows := follow_follows old names h d
      generalize h.follow old names d = r at hfollows he
      cases hfollows with
      | absent | same | place => cases he
      | failed hn hobjection =>
        rw [Option.toList_some, List.mem_singleton] at he
        rintro ⟨name, rounds, hcause⟩
        subst he
        cases hobjection <;> cases hcause
    · exact ih _ e he

theorem declare_errors (names : NameTable) (ds : List ClassDecl) (t : TypeTable) :
    ∀ e ∈ (h.declare names ds t).1.1, ¬ e.IsDivergence :=
  followClauses_errors h.size names ds _

/-! ## The predefined classes -/

/-- The predefined classes have their names. -/
structure Predefined (core : CoreNames) (h : Hierarchy) : Prop where
  object : h.find? core.object = some .object
  nil : h.find? core.nil = some .nil
  bool : h.find? core.bool = some .bool
  int : h.find? core.int = some .int
  float : h.find? core.float = some .float

theorem Predefined.declared {core : CoreNames} {h' : Hierarchy} {t' : TypeTable}
    (hp : Predefined core h) (hd : Declared h t h' t') : Predefined core h' :=
  ⟨hd.find? hp.object, hd.find? hp.nil, hd.find? hp.bool, hd.find? hp.int, hd.find? hp.float⟩

theorem Predefined.five_le {core : CoreNames} (hp : Predefined core h) : 5 ≤ h.size := by
  obtain ⟨i, hi, -⟩ := find?_eq_some.1 hp.float
  exact lt_size hi

theorem find?_place (c p : ClassId) : (h.place c p).find? n = h.find? n := by
  refine Option.ext fun d => ?_
  have := h.map_name_place c p d
  simp only [find?_eq_some]
  constructor
  · rintro ⟨i, hi, rfl⟩
    rw [hi, Option.map_some] at this
    obtain ⟨j, hj, hn⟩ := Option.map_eq_some_iff.1 this.symm
    exact ⟨j, hj, hn⟩
  · rintro ⟨i, hi, rfl⟩
    rw [hi, Option.map_some, Option.map_eq_some_iff] at this
    exact this

/-- The next predefined class. -/
theorem add_place (H : t.WF) (hn : h.find? n = none) :
    ∃ h' t', ((h.add n .dummy) t).2 = t' ∧ ((h.add n .dummy) t).1.place ⟨h.size⟩ .object = h' ∧
      Declared h t h' t' ∧ h'.size = h.size + 1 ∧ h'.find? n = some ⟨h.size⟩ ∧
      ∀ m, m ≠ n → h.find? m = none → h'.find? m = none := by
  obtain ⟨hd, hnew⟩ := Declared.add (h := h) H n .dummy
  obtain ⟨hsize, hfind, hother⟩ := hnew hn
  refine ⟨_, _, rfl, rfl, hd.trans (.place hd.wf _ _), by rw [size_place, hsize], ?_,
    fun m hm hf => ?_⟩
  · rw [find?_place, hfind]
  · rw [find?_place]
    exact Option.eq_none_iff_forall_ne_some.2 fun c => hother m c hm hf

theorem initial_declared (H : t.WF) {core : CoreNames} {names : NameTable}
    (hc : core.Fits names) : Declared ⟨∅⟩ t (initial core t).1 (initial core t).2 ∧
      Predefined core (initial core t).1 := by
  have ne {n m : Name} {s s' : String} (hn : names.Names s n) (hm : names.Names s' m)
      (hs : s ≠ s') : n ≠ m := fun h => hs (hn.text_unique (h ▸ hm))
  have none (n : Name) : (⟨∅⟩ : Hierarchy).find? n = none := rfl
  have dn := ne hc.nil hc.object (by decide)
  have db := ne hc.bool hc.object (by decide)
  have di := ne hc.int hc.object (by decide)
  have df := ne hc.float hc.object (by decide)
  obtain ⟨hd₀, hnew⟩ := Declared.add (h := ⟨∅⟩) H core.object .dummy
  obtain ⟨hsize₀, hfind₀, hother⟩ := hnew (none _)
  have other₀ (m : Name) (hm : m ≠ core.object) :
      (add ⟨∅⟩ core.object .dummy t).1.find? m = Option.none :=
    Option.eq_none_iff_forall_ne_some.2 fun c => hother m c hm (none m)
  obtain ⟨h₁, t₁, ht₁, hh₁, hd₁, hsize₁, hfind₁, other₁⟩ := add_place hd₀.wf (other₀ _ dn)
  obtain ⟨h₂, t₂, ht₂, hh₂, hd₂, hsize₂, hfind₂, other₂⟩ := add_place hd₁.wf
    (other₁ core.bool (ne hc.bool hc.nil (by decide)) (other₀ _ db))
  obtain ⟨h₃, t₃, ht₃, hh₃, hd₃, hsize₃, hfind₃, other₃⟩ := add_place hd₂.wf
    (other₂ core.int (ne hc.int hc.bool (by decide))
      (other₁ _ (ne hc.int hc.nil (by decide)) (other₀ _ di)))
  obtain ⟨h₄, t₄, ht₄, hh₄, hd₄, hsize₄, hfind₄, -⟩ := add_place hd₃.wf
    (other₃ core.float (ne hc.float hc.int (by decide))
      (other₂ _ (ne hc.float hc.bool (by decide))
        (other₁ _ (ne hc.float hc.nil (by decide)) (other₀ _ df))))
  have run : initial core t = (h₄, t₄) := by
    rw [← hh₄, ← ht₄, ← hh₃, ← ht₃, ← hh₂, ← ht₂, ← hh₁, ← ht₁]
    rfl
  have hsize : (add ⟨∅⟩ core.object .dummy t).1.size = 1 := hsize₀
  rw [run]
  have hd₃₄ := hd₄
  have hd₂₄ := hd₃.trans hd₃₄
  have hd₁₄ := hd₂.trans hd₂₄
  refine ⟨hd₀.trans (hd₁.trans hd₁₄), (hd₁.trans hd₁₄).find? hfind₀, ?_, ?_, ?_, ?_⟩
  · rw [hd₁₄.find? hfind₁, hsize]; rfl
  · rw [hd₂₄.find? hfind₂, hsize₁, hsize]; rfl
  · rw [hd₃₄.find? hfind₃, hsize₂, hsize₁, hsize]; rfl
  · rw [hfind₄, hsize₃, hsize₂, hsize₁, hsize]; rfl

end Hierarchy

end Multimethod
