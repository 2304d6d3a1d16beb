import Multimethod.Proofs.Inference.Local
import Multimethod.Proofs.Order.Types
import Multimethod.Proofs.Registration

/-!
# Registering definitions in another order

Whether a definition is registered depends only on the definitions of its name that come before it.
So if definitions are reordered and those of each name keep their order (`Reordered`), the same ones
are registered, and the methods of each name are in the same order (`Ground.SameNamed`). Methods
that stand at the same place among those of their name are counterparts.
-/

namespace List

variable {α κ : Type} [DecidableEq κ]

/-- Lists with the same elements for each key are permutations of each other. -/
theorem perm_of_filter_eq {l l' : List α} (key : α → κ)
    (h : ∀ k, l.filter (key · = k) = l'.filter (key · = k)) : l.Perm l' := by
  classical
  refine List.perm_iff_count.2 fun a => ?_
  have hcount (l : List α) : (l.filter (key · = key a)).count a = l.count a :=
    List.count_filter (by simp)
  rw [← hcount l, ← hcount l', h]

end List

namespace Multimethod

open TypeTable

/-- The same definitions in another order, except that those of each name keep theirs. -/
def Reordered (ds ds' : List Definition) : Prop :=
  ∀ n, ds.filter (·.name = n) = ds'.filter (·.name = n)

theorem Reordered.perm {ds ds' : List Definition} (h : Reordered ds ds') : ds.Perm ds' :=
  List.perm_of_filter_eq Definition.name h

/-- Definitions with different names may come in any order. -/
theorem Reordered.of_nodup {ds ds' : List Definition} (hnodup : (ds.map (·.name)).Nodup)
    (hperm : ds.Perm ds') : Reordered ds ds' := by
  intro n
  have hone : (ds.filter (·.name = n)).length ≤ 1 := by
    rw [← List.countP_eq_length_filter]
    have hcount := List.nodup_iff_count_le_one.1 hnodup n
    rw [List.count, List.countP_map] at hcount
    simpa [Function.comp_def, beq_eq_decide] using hcount
  have hfilter := hperm.filter (·.name = n)
  match hl : ds.filter (·.name = n) with
  | [] =>
    rw [hl] at hfilter ⊢
    exact hfilter.nil_eq
  | [d] =>
    rw [hl] at hfilter ⊢
    exact List.singleton_perm.1 hfilter
  | _ :: _ :: _ => simp [hl] at hone

namespace MethodTable

variable {ms : MethodTable} {m : MethodId} {n : Name}

/-! ## The methods of one name -/

/-- The methods with a given name, in the order of registration. -/
def idsOf (ms : MethodTable) (n : Name) : List MethodId :=
  ms.ids.filter fun m => (ms.get? m).any (·.definition.name = n)

/-- Overload sets are in the order of registration, and nothing is missing in them. -/
def Listed (ms : MethodTable) : Prop :=
  ∀ n o, ms.overloads n o = (ms.idsOf n).filter fun m => (ms.get? m).any (·.owner = o)

theorem mem_idsOf : m ∈ ms.idsOf n ↔ ∃ md, ms.get? m = some md ∧ md.definition.name = n := by
  simp only [idsOf, List.mem_filter, Option.any_eq_true, decide_eq_true_eq, and_iff_right_iff_imp]
  rintro ⟨md, hmd, -⟩
  exact List.mem_map.2 ⟨m.index, List.mem_range.2 (Array.getElem?_eq_some_iff.1 hmd).1, rfl⟩

theorem pairwise_idsOf (ms : MethodTable) (n : Name) : (ms.idsOf n).Pairwise (· < ·) := by
  have hids : ms.ids.Pairwise (· < ·) := List.pairwise_lt_range.map _ fun _ _ => id
  exact hids.filter _

theorem get?_push_of_lt (md : Method) (h : m.index < ms.size) :
    (ms.push md).get? m = ms.get? m := by
  rw [get?_push, if_neg (Nat.ne_of_lt h)]

theorem get?_push_of_get? {md md' : Method} (h : ms.get? m = some md') :
    (ms.push md).get? m = some md' :=
  (get?_push_of_lt md (Array.getElem?_eq_some_iff.1 h).1).trans h

theorem get?_push_size (md : Method) : (ms.push md).get? ⟨ms.size⟩ = some md := by
  rw [get?_push, if_pos rfl]

theorem idsOf_push (md : Method) (n : Name) : (ms.push md).idsOf n =
    if md.definition.name = n then ms.idsOf n ++ [⟨ms.size⟩] else ms.idsOf n := by
  have hids : (ms.push md).ids = ms.ids ++ [⟨ms.size⟩] := by
    simp [ids, size, push, List.range_succ]
  have hold : ∀ m ∈ ms.ids, (ms.push md).get? m = ms.get? m := fun m hm => by
    obtain ⟨i, hi, rfl⟩ := List.mem_map.1 hm
    exact get?_push_of_lt md (List.mem_range.1 hi)
  rw [idsOf, hids, List.filter_append, List.filter_congr fun m hm => by rw [hold m hm]]
  rw [List.filter_cons, get?_push_size]
  by_cases hn : md.definition.name = n <;> simp [hn, idsOf]

theorem Listed.empty : Listed .empty := fun n o => by
  simp [overloads, OverloadSets.of, idsOf, ids, size, MethodTable.empty]

theorem Listed.push (h : ms.Listed) (md : Method) : (ms.push md).Listed := by
  intro n o
  have hold : ∀ m ∈ ms.idsOf n, (ms.push md).get? m = ms.get? m := fun m hm => by
    obtain ⟨md', hmd', -⟩ := mem_idsOf.1 hm
    rw [hmd', get?_push_of_get? hmd']
  have hfilter : (ms.idsOf n).filter (fun m => ((ms.push md).get? m).any (·.owner = o)) =
      ms.overloads n o := by
    rw [h n o]
    exact List.filter_congr fun m hm => by rw [hold m hm]
  rw [overloads_push, idsOf_push]
  by_cases hn : md.definition.name = n
  · rw [if_pos hn, List.filter_append, hfilter, List.filter_cons, get?_push_size]
    by_cases ho : md.owner = o
    · simp [hn, ho]
    · simp [ho, Ne.symm ho]
  · rw [if_neg hn, hfilter, if_neg fun h => hn h.1.symm]

end MethodTable

namespace Ground

variable {G : Ground} {t u v t' u' : TypeTable} {m m' : Method} {ms ms' ms'' : MethodTable}
  {n : Name} {h : Hierarchy} {names : NameTable}

/-! ## Same methods -/

variable (G) in
/-- The methods come from the same definition and stand for the same types. -/
structure SameMethod (t u : TypeTable) (m m' : Method) : Prop where
  definition : m.definition = m'.definition
  owner : m.owner = m'.owner
  restrictions : List.Forall₂ (Option.Rel (G.Same t u)) m.restrictions m'.restrictions

variable (G) in
/-- The two tables have the same methods with a given name, in the same order. -/
def SameNamed (t u : TypeTable) (ms ms' : MethodTable) (n : Name) : Prop :=
  List.Forall₂ (fun m m' => ∃ md md', ms.get? m = some md ∧ ms'.get? m' = some md' ∧
    G.SameMethod t u md md') (ms.idsOf n) (ms'.idsOf n)

namespace SameMethod

theorem symm (h : G.SameMethod t u m m') : G.SameMethod u t m' m :=
  ⟨h.definition.symm, h.owner.symm,
    h.restrictions.flip.imp fun _ _ h => h.flip.imp fun _ _ h => h.symm⟩

theorem trans {m'' : Method} (h : G.SameMethod t u m m') (h' : G.SameMethod u v m' m'') :
    G.SameMethod t v m m'' := by
  refine ⟨h.definition.trans h'.definition, h.owner.trans h'.owner,
    h.restrictions.trans_of h'.restrictions ?_⟩
  rintro _ _ _ (⟨hr⟩ | _) (⟨hr'⟩ | _)
  · exact .some (hr.trans hr')
  · exact .none

theorem mono (h : G.SameMethod t u m m') (hl : t ≤ t') (hr : u ≤ u') : G.SameMethod t' u' m m' :=
  ⟨h.definition, h.owner,
    h.restrictions.imp fun _ _ h => h.imp fun _ _ h => h.mono hl hr⟩

theorem declared (h : G.SameMethod t u m m') (i : Nat) :
    Option.Rel (G.Same t u) (m.declared i) (m'.declared i) := by
  simp only [Method.declared]
  by_cases hi : i < m.restrictions.length
  · have hi' : i < m'.restrictions.length := h.restrictions.length_eq ▸ hi
    rw [List.getElem?_eq_getElem hi, List.getElem?_eq_getElem hi']
    exact h.restrictions.get hi hi'
  · rw [List.getElem?_eq_none (Nat.le_of_not_lt hi),
      List.getElem?_eq_none (h.restrictions.length_eq ▸ Nat.le_of_not_lt hi)]
    exact .none

/-- Methods with the same signature are equal if their restrictions are. -/
theorem restrictions_eq_iff (H : G.Twins t u) (h : G.SameMethod t u m m')
    {rs rs' : List (Option TypeId)} (hrs : List.Forall₂ (Option.Rel (G.Same t u)) rs rs') :
    m.restrictions = rs ↔ m'.restrictions = rs' :=
  Relator.rel_eq (Option.Rel.biUnique (Same.biUnique H)).forall₂ h.restrictions hrs

variable (h names) in
theorem signatureOf_eq (H : G.Twins t u) (hm : G.SameMethod t u m m') :
    MethodTable.signatureOf h t names m = MethodTable.signatureOf h u names m' := by
  have hparams : List.zipWith (MethodTable.paramText h t names) m.definition.params m.restrictions =
      List.zipWith (MethodTable.paramText h u names) m.definition.params m'.restrictions := by
    have := hm.restrictions
    generalize m.definition.params = ps, m.restrictions = rs, m'.restrictions = rs' at this
    induction this generalizing ps with
    | nil => rw [List.zipWith_nil_right, List.zipWith_nil_right]
    | cons hr _ ih =>
      cases ps with
      | nil => rfl
      | cons p ps =>
        rw [List.zipWith_cons_cons, List.zipWith_cons_cons, ih]
        congr 1
        cases hr with
        | some hr => simp only [MethodTable.paramText, Option.map_some, typeText_eq h H hr]
        | none => rfl
  unfold MethodTable.signatureOf
  rw [hparams, hm.definition, hm.owner]

end SameMethod

namespace SameNamed

theorem symm (hn : G.SameNamed t u ms ms' n) : G.SameNamed u t ms' ms n :=
  hn.flip.imp fun _ _ ⟨_, _, hm, hm', h⟩ => ⟨_, _, hm', hm, h.symm⟩

theorem trans (hn : G.SameNamed t u ms ms' n) (hn' : G.SameNamed u v ms' ms'' n) :
    G.SameNamed t v ms ms'' n := by
  refine List.Forall₂.trans_of hn hn' ?_
  rintro m₁ m₂ m₃ ⟨md₁, md₂, h₁, h₂, h⟩ ⟨md₂', md₃, h₂', h₃, h'⟩
  cases h₂.symm.trans h₂'
  exact ⟨md₁, md₃, h₁, h₃, h.trans h'⟩

theorem mono (hn : G.SameNamed t u ms ms' n) (hl : t ≤ t') (hr : u ≤ u') :
    G.SameNamed t' u' ms ms' n :=
  hn.imp fun _ _ ⟨_, _, hm, hm', h⟩ => ⟨_, _, hm, hm', h.mono hl hr⟩

theorem empty (n : Name) : G.SameNamed t u .empty .empty n := .nil

/-- Registering a method with another name. -/
theorem push_left (hn : G.SameNamed t u ms ms' n) (hne : m.definition.name ≠ n) :
    G.SameNamed t u (ms.push m) ms' n := by
  rw [SameNamed, MethodTable.idsOf_push, if_neg hne]
  exact hn.imp fun _ _ ⟨_, _, hm, hm', h⟩ =>
    ⟨_, _, MethodTable.get?_push_of_get? hm, hm', h⟩

/-- Registering the same method with this name on both sides. -/
theorem push (hn : G.SameNamed t u ms ms' n) (hm : G.SameMethod t u m m')
    (hname : m.definition.name = n) : G.SameNamed t u (ms.push m) (ms'.push m') n := by
  rw [SameNamed, MethodTable.idsOf_push, if_pos hname, MethodTable.idsOf_push,
    if_pos (hm.definition ▸ hname)]
  refine List.rel_append (hn.imp fun _ _ ⟨_, _, hmd, hmd', h⟩ => ⟨_, _,
    MethodTable.get?_push_of_get? hmd, MethodTable.get?_push_of_get? hmd', h⟩) (.cons ?_ .nil)
  exact ⟨m, m', MethodTable.get?_push_size m, MethodTable.get?_push_size m', hm⟩

/-- The overload sets of the name correspond. -/
theorem overloads (hn : G.SameNamed t u ms ms' n) (hl : ms.Listed) (hl' : ms'.Listed)
    (o : MethodOwner) :
    List.Forall₂ (fun m m' => ∃ md md', ms.get? m = some md ∧ ms'.get? m' = some md' ∧
      G.SameMethod t u md md') (ms.overloads n o) (ms'.overloads n o) := by
  rw [hl n o, hl' n o]
  refine List.rel_filter (fun m m' => ?_) hn
  rintro ⟨md, md', hmd, hmd', h⟩
  simp [hmd, hmd', h.owner]

end SameNamed

/-! ## Registering a definition -/

section
variable (hh : h.size ≤ G.classes)
include hh

section
set_option linter.unusedSectionVars false
variable (names) (span : Span)

mutual

/-- A restriction stands for the same type on both sides. -/
theorem resolveRestriction_alike : ∀ (r : Restriction) {t u : TypeTable}, G.Twins t u →
    G.Alike t u (h.resolveRestriction names span r).run (h.resolveRestriction names span r).run
      fun t u => Outcomes (G.Same t u)
  | .named n, t, u, H => by
    simp only [Hierarchy.resolveRestriction, Hierarchy.requireClass]
    cases hc : h.find? n with
    | none => exact .pure H rfl
    | some c =>
      have hlt : c.index < G.classes := Nat.lt_of_lt_of_le (Hierarchy.find?_lt hc) hh
      refine ((exact_alike H hlt).mono fun t' u' a b H' _ _ => ?_).lift
      rintro ⟨rfl, ha, -⟩
      exact .atom H' ha
  | .nilable r, t, u, H => by
    simp only [Hierarchy.resolveRestriction]
    exact (resolveRestriction_alike r H).bindExcept fun _ _ _ _ H' _ _ hab =>
      (orNil_alike H' hab).lift
  | .union rs, t, u, H => by
    simp only [Hierarchy.resolveRestriction]
    exact (resolveRestrictions_alike rs H).bindExcept fun _ _ _ _ H' _ _ hab =>
      (unionOf_alike H' hab).lift
  | .self, t, u, H => .pure H (Same.atom H atom_self)

theorem resolveRestrictions_alike : ∀ (rs : List Restriction) {t u : TypeTable}, G.Twins t u →
    G.Alike t u (h.resolveRestrictions names span rs).run
      (h.resolveRestrictions names span rs).run
      fun t u => Outcomes (List.Forall₂ (G.Same t u))
  | [], t, u, H => .pure H .nil
  | r :: rs, t, u, H => by
    simp only [Hierarchy.resolveRestrictions]
    refine (resolveRestriction_alike r H).bindExcept fun _ _ _ _ H' _ _ hab => ?_
    refine (resolveRestrictions_alike rs H').bindExcept fun _ _ _ _ H'' hl hr has => ?_
    exact .pure H'' (.cons (hab.mono hl hr) has)

end

end

variable (names) in
theorem resolveParams_alike (ps : List Param) : ∀ {t u : TypeTable}, G.Twins t u →
    G.Alike t u (MethodTable.resolveParams h names ps).run
      (MethodTable.resolveParams h names ps).run
      fun t u => Outcomes (List.Forall₂ (Option.Rel (G.Same t u))) := by
  induction ps with
  | nil => exact fun H => .pure H .nil
  | cons p ps ih =>
    intro t u H
    simp only [MethodTable.resolveParams]
    have rest {t u : TypeTable} (H : G.Twins t u) {a b : Option TypeId}
        (hab : Option.Rel (G.Same t u) a b) :
        G.Alike t u (do return a :: (← MethodTable.resolveParams h names ps) :
            ExceptT TypeError (StateM TypeTable) (List (Option TypeId))).run
          (do return b :: (← MethodTable.resolveParams h names ps) :
            ExceptT TypeError (StateM TypeTable) (List (Option TypeId))).run
          fun t u => Outcomes (List.Forall₂ (Option.Rel (G.Same t u))) :=
      (ih H).bindExcept fun _ _ _ _ H' hl hr has =>
        .pure H' (.cons (hab.imp fun _ _ h => h.mono hl hr) has)
    cases p.restriction with
    | none =>
      simp only [pure_bind]
      exact rest H .none
    | some r =>
      simp only [bind_map_left]
      exact (resolveRestriction_alike names hh p.span r H).bindExcept fun _ _ _ _ H' _ _ hab =>
        rest H' (.some hab)

variable (names) in
theorem resolveMethod_alike (d : Definition) (H : G.Twins t u) :
    G.Alike t u (MethodTable.resolveMethod h names d).run
      (MethodTable.resolveMethod h names d).run fun t u =>
      Outcomes fun m m' => m.definition = d ∧ G.SameMethod t u m m' := by
  unfold MethodTable.resolveMethod
  cases MethodTable.resolveOwner h names d with
  | error e => exact .pure H rfl
  | ok owner =>
    cases MethodTable.misplacedParam? d with
    | some p => exact .pure H rfl
    | none =>
      exact (resolveParams_alike names hh d.params H).bindExcept fun _ _ _ _ H' _ _ hrs =>
        .pure H' ⟨rfl, rfl, rfl, hrs⟩

omit hh in
/-- The earlier methods that a method is compared with are the same ones. -/
theorem duplicate?_alike (H : G.Twins t u) (hl : ms.Listed) (hl' : ms'.Listed)
    (hm : G.SameMethod t u m m') (hn : G.SameNamed t u ms ms' m.definition.name) :
    Option.Rel (G.SameMethod t u)
      (ms.duplicate? m.definition.name m.owner m.restrictions)
      (ms'.duplicate? m'.definition.name m'.owner m'.restrictions) := by
  have hover := hn.overloads hl hl' m.owner
  unfold MethodTable.duplicate?
  rw [← hm.definition, ← hm.owner]
  generalize ms.overloads m.definition.name m.owner = is,
    ms'.overloads m.definition.name m.owner = is' at hover
  induction hover with
  | nil => exact .none
  | @cons i i' is is' hi _ ih =>
    obtain ⟨md, md', hmd, hmd', hsame⟩ := hi
    have hiff := hsame.restrictions_eq_iff H hm.restrictions
    rw [List.findSome?_cons, List.findSome?_cons, hmd, hmd']
    by_cases hr : md.restrictions = m.restrictions
    · simpa [Option.filter_some, hr, hiff.1 hr] using hsame
    · simpa [Option.filter_some, hr, mt hiff.2 hr] using ih

/-- What registering a definition does to two tables: it fails alike, or the same method is added. -/
inductive SameAdded (G : Ground) (t u : TypeTable) (ms ms' : MethodTable) (d : Definition) :
    Except TypeError MethodId × MethodTable → Except TypeError MethodId × MethodTable → Prop
  | error (e : TypeError) : SameAdded G t u ms ms' d (.error e, ms) (.error e, ms')
  | ok {m m' : Method} (hd : m.definition = d) (hm : G.SameMethod t u m m') :
    SameAdded G t u ms ms' d (.ok ⟨ms.size⟩, ms.push m) (.ok ⟨ms'.size⟩, ms'.push m')

variable (h names) in
omit hh in
theorem enter_alike (H : G.Twins t u) (hl : ms.Listed) (hl' : ms'.Listed)
    (hm : G.SameMethod t u m m') (hn : G.SameNamed t u ms ms' m.definition.name) :
    G.Alike t u ((MethodTable.enter h names m).run ms) ((MethodTable.enter h names m').run ms')
      fun t u => SameAdded G t u ms ms' m.definition := by
  have hdup := duplicate?_alike H hl hl' hm hn
  obtain ⟨previous, hp⟩ : ∃ previous, ms.duplicate? m.definition.name m.owner m.restrictions =
    previous := ⟨_, rfl⟩
  obtain ⟨previous', hp'⟩ : ∃ previous', ms'.duplicate? m'.definition.name m'.owner
    m'.restrictions = previous' := ⟨_, rfl⟩
  rw [hp, hp'] at hdup
  cases hdup with
  | none =>
    exact (Alike.pure H (.ok rfl hm)).congr (MethodTable.enter_of_none h names hp)
      (MethodTable.enter_of_none h names hp')
  | some hsame =>
    refine (Alike.pure H (.error _)).congr (MethodTable.enter_of_some h names hp) ?_
    rw [MethodTable.enter_of_some h names hp', ← hm.signatureOf_eq h names H, ← hsame.definition,
      ← hm.definition]
    rfl

variable (names) in
/-- Registering a definition in two tables with the same methods of its name. -/
theorem add_alike (H : G.Twins t u) (hl : ms.Listed) (hl' : ms'.Listed) (d : Definition)
    (hn : G.SameNamed t u ms ms' d.name) :
    G.Alike t u ((MethodTable.add h names d).run ms) ((MethodTable.add h names d).run ms')
      fun t u => SameAdded G t u ms ms' d := by
  unfold MethodTable.add
  rw [MethodTable.run_liftM_bind, MethodTable.run_liftM_bind]
  refine (resolveMethod_alike names hh d H).bind fun t' u' r r' H' hle hle' hr => ?_
  match r, r' with
  | .error e, .error e' =>
    cases (show e = e' from hr)
    exact .pure H' (.error e)
  | .ok m, .ok m' =>
    obtain ⟨rfl, hm⟩ := hr
    exact enter_alike h names H' hl hl' hm (hn.mono hle hle')

end

/-! ## Registering definitions -/

end Ground

namespace MethodTable

/-- Register some definitions one after the other, telling of each how it failed, if it did. -/
def addEach (h : Hierarchy) (names : NameTable) :
    List Definition → StateT MethodTable (StateM TypeTable) (List (Definition × Option TypeError))
  | [] => pure []
  | d :: ds => do
    let r ← add h names d
    return (d, complaint r) :: (← addEach h names ds)

theorem run_addEach_cons (h : Hierarchy) (names : NameTable) (d : Definition)
    (ds : List Definition) (ms : MethodTable) : (addEach h names (d :: ds)).run ms =
      (add h names d).run ms >>= fun p =>
        (fun q => ((d, complaint p.1) :: q.1, q.2)) <$> (addEach h names ds).run p.2 := rfl

theorem addAll_eq (h : Hierarchy) (names : NameTable) (ds : List Definition) :
    addAll h names ds = (·.filterMap (·.2)) <$> addEach h names ds := by
  induction ds with
  | nil => rfl
  | cons d ds ih =>
    rw [addAll_cons, ih]
    simp only [addEach, map_bind, bind_map_left]
    congr 1
    funext r
    cases r <;> rfl

end MethodTable

namespace Ground

variable {G : Ground} {t u : TypeTable} {ms ms' : MethodTable} {h : Hierarchy}

section
variable (hh : h.size ≤ G.classes) (names : NameTable)
include hh

/-- What registering definitions does about those of one name is what it does without the others. -/
theorem addEach_alike (n : Name) (ds : List Definition) : ∀ {ms ms' : MethodTable}
    {t u : TypeTable}, G.Twins t u → ms.Listed → ms'.Listed → G.SameNamed t u ms ms' n →
    G.Alike t u ((MethodTable.addEach h names ds).run ms)
      ((MethodTable.addEach h names (ds.filter (·.name = n))).run ms') fun t u p p' =>
        p.1.filter (·.1.name = n) = p'.1 ∧ p.2.Listed ∧ p'.2.Listed ∧
          G.SameNamed t u p.2 p'.2 n := by
  induction ds with
  | nil => exact fun H hl hl' hn => .pure H ⟨rfl, hl, hl', hn⟩
  | cons d ds ih =>
    intro ms ms' t u H hl hl' hn
    by_cases hd : d.name = n
    · subst hd
      rw [List.filter_cons_of_pos (by simp), MethodTable.run_addEach_cons,
        MethodTable.run_addEach_cons]
      refine (add_alike names hh H hl hl' d hn).bind fun t₁ u₁ r r' H₁ hle hle' hr => ?_
      have hn₁ := hn.mono hle hle'
      cases hr with
      | error e =>
        refine (ih H₁ hl hl' hn₁).map fun t₂ u₂ p p' _ _ _ hp => ⟨?_, hp.2⟩
        rw [List.filter_cons_of_pos (by simp), hp.1]
      | ok hd hm =>
        refine (ih H₁ (hl.push _) (hl'.push _) (hn₁.push hm (hd ▸ rfl))).map
          fun t₂ u₂ p p' _ _ _ hp => ⟨?_, hp.2⟩
        rw [List.filter_cons_of_pos (by simp), hp.1]
        rfl
    · rw [List.filter_cons_of_neg (by simpa using hd), MethodTable.run_addEach_cons]
      obtain ⟨r, ms₁, t₁, hrun, hwf, hle, hadd⟩ := MethodTable.add_spec h names H.left ms d
      refine .left_bind (P := fun (r : _ × MethodTable) _ => r.2.Listed ∧ ∀ v, G.SameNamed v u ms ms' n →
        G.SameNamed v u r.2 ms' n) H ?_ fun t₂ r₂ H₂ hle₂ hr₂ => ?_
      · rw [hrun]
        refine ⟨hwf, hle, ?_⟩
        cases r with
        | ok m =>
          obtain ⟨owner, rs, -, -, -, rfl⟩ := hadd
          exact ⟨hl.push _, fun v hv => hv.push_left hd⟩
        | error e =>
          obtain ⟨-, rfl⟩ := hadd
          exact ⟨hl, fun v hv => hv⟩
      · have hrest := ih H₂ hr₂.1 hl' (hr₂.2 _ (hn.mono hle₂ (le_refl u)))
        rw [← id_map ((MethodTable.addEach h names _).run ms')]
        refine hrest.map fun t₃ u₃ p p' _ _ _ hp => ⟨?_, hp.2⟩
        rw [List.filter_cons_of_neg (by simpa using hd)]
        exact hp.1

/-- Definitions that are reordered are registered alike, and the complaints are the same. -/
theorem addAll_alike {ds ds' : List Definition} (hds : Reordered ds ds') (H : G.Twins t u) :
    G.Alike t u ((MethodTable.addAll h names ds).run .empty)
      ((MethodTable.addAll h names ds').run .empty)
      fun t u p p' => p.1.Perm p'.1 ∧ p.2.Listed ∧ p'.2.Listed ∧
        ∀ n, G.SameNamed t u p.2 p'.2 n := by
  have hl : MethodTable.empty.Listed := .empty
  -- Each name by itself is compared with what is registered if there are no other names.
  have left (n : Name) := addEach_alike hh names n ds (t := t)
    ⟨H.left, H.left, H.left_le, H.left_le⟩ hl hl (.empty n)
  have right (n : Name) := addEach_alike hh names n ds' (t := u) (u := t) H.symm hl hl (.empty n)
  simp only [← hds _] at right
  rw [MethodTable.addAll_eq, MethodTable.addAll_eq]
  set x := (MethodTable.addEach h names ds).run .empty t
  set y := (MethodTable.addEach h names ds').run .empty u
  refine ⟨⟨(left Name.empty).twins.left, (right Name.empty).twins.left,
    (left Name.empty).twins.left_le, (right Name.empty).twins.left_le⟩, (left Name.empty).left,
    (right Name.empty).left, ?_, (left Name.empty).post.2.1, (right Name.empty).post.2.1,
    fun n => (left n).post.2.2.2.trans (right n).post.2.2.2.symm⟩
  refine List.Perm.filterMap _ (List.perm_of_filter_eq (fun p => p.1.name) fun n => ?_)
  exact (left n).post.1.trans (right n).post.1.symm

end

end Ground

end Multimethod
