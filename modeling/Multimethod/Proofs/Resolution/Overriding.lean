import Multimethod.Proofs.Resolution.Specificity

/-!
# Nearer definitions come first

Candidates are listed class by class going up, and those of one owner in the order of registration
(`Registry.pairwise_candidates`). Of two applicable candidates with the same restrictions the later
one is not picked (`Registry.pick_overrides`), unless one that stands between them has different
restrictions with the same subtypes: it may take the place of the earlier one, and the later one its
place.
-/

namespace List

variable {α : Type} {R : α → α → Prop} {l : List α} {a b : α}

/-- In a list that is in order, what is before another stands before it. -/
theorem Pairwise.sublist_pair (h : l.Pairwise R) (hasymm : ∀ a b, R a b → ¬ R b a) (ha : a ∈ l)
    (hb : b ∈ l) (hab : R a b) : [a, b].Sublist l := by
  induction h with
  | nil => cases ha
  | @cons x l hx _ ih =>
    rcases List.mem_cons.1 ha with rfl | hal
    · rcases List.mem_cons.1 hb with rfl | hb
      · exact absurd hab (hasymm _ _ hab)
      · exact (List.singleton_sublist.2 hb).cons_cons a
    · rcases List.mem_cons.1 hb with rfl | hb
      · exact absurd (hx a hal) (hasymm _ _ hab)
      · exact (ih hal hb).cons x

/-- What stands before another, in parts of the list. -/
theorem exists_of_sublist_pair (h : [a, b].Sublist l) :
    ∃ l₁ l₂ l₃, l = l₁ ++ a :: (l₂ ++ b :: l₃) := by
  obtain ⟨r₁, r₂, rfl, ha, hb⟩ := List.cons_sublist_iff.1 h
  obtain ⟨l₁, m₁, rfl⟩ := List.append_of_mem ha
  obtain ⟨m₂, l₃, rfl⟩ := List.append_of_mem (List.singleton_sublist.1 hb)
  exact ⟨l₁, m₁ ++ m₂, l₃, by simp⟩

end List

namespace Multimethod

open Relation TypeTable

/-! ## The order of candidates -/

/-- What is defined on `o` is found before what is defined on `p`. -/
inductive MethodOwner.Nearer (h : Hierarchy) : MethodOwner → MethodOwner → Prop where
  | instances {c d : ClassId} (hcd : TransGen h.Up c d) : Nearer h (.instances c) (.instances d)
  | classObjects {c d : ClassId} (hcd : TransGen h.Up c d) :
    Nearer h (.classObject c) (.classObject d)
  | root {c : ClassId} : Nearer h (.classObject c) (.instances .object)

theorem MethodOwner.Nearer.asymm {h : Hierarchy} (F : h.Forest) {o p : MethodOwner}
    (hop : o.Nearer h p) : ¬ p.Nearer h o := by
  intro hpo
  cases hop with
  | instances hcd =>
    cases hpo with
    | instances hdc => exact F.acyclic _ (hcd.trans hdc)
  | classObjects hcd =>
    cases hpo with
    | classObjects hdc => exact F.acyclic _ (hcd.trans hdc)
  | root => cases hpo

theorem Hierarchy.pairwise_ancestors (h : Hierarchy) (c : ClassId) :
    (h.ancestors c).Pairwise (TransGen h.Up) :=
  (Hierarchy.isChain_chain.imp fun _ _ hup => TransGen.single hup).pairwise

namespace MethodTable

variable {ms : MethodTable} {m : MethodId} {n : Name} {o : MethodOwner}

theorem pairwise_lookupOrder (h : Hierarchy) (s : Shape) :
    (lookupOrder h s).Pairwise (MethodOwner.Nearer h) := by
  have up (c : ClassId) : ((h.ancestors c).map MethodOwner.instances).Pairwise (MethodOwner.Nearer h) :=
    (h.pairwise_ancestors c).map _ fun _ _ hcd => .instances hcd
  cases s with
  | exact c | below c => exact up c
  | classObject c =>
    refine List.pairwise_append.2 ⟨(h.pairwise_ancestors c).map _ fun _ _ hcd => .classObjects hcd,
      List.pairwise_singleton _ _, fun o ho p hp => ?_⟩
    obtain ⟨d, -, rfl⟩ := List.mem_map.1 ho
    rw [List.mem_singleton.1 hp]
    exact .root
  | never | self | union _ => exact .nil

theorem Listed.mem_overloads (L : ms.Listed) :
    m ∈ ms.overloads n o ↔ ∃ md, ms.get? m = some md ∧ md.definition.name = n ∧ md.owner = o := by
  rw [L n o, List.mem_filter, mem_idsOf, Option.any_eq_true]
  constructor
  · rintro ⟨⟨md, hmd, hn⟩, md', hmd', ho⟩
    cases hmd.symm.trans hmd'
    exact ⟨md, hmd, hn, of_decide_eq_true ho⟩
  · rintro ⟨md, hmd, hn, ho⟩
    exact ⟨⟨md, hmd, hn⟩, md, hmd, decide_eq_true ho⟩

theorem Listed.pairwise_overloads (L : ms.Listed) (n : Name) (o : MethodOwner) :
    (ms.overloads n o).Pairwise (· < ·) := by
  rw [L n o]
  exact (ms.pairwise_idsOf n).filter _

end MethodTable

namespace Registry

variable {g : Registry} {t : TypeTable} {receiver : Option TypeId} {args : List TypeId}
  {c d e : MethodId} {k : Name} {n : Nat}

/-- A method of a nearer owner, or one of the same owner that was registered before. -/
def Precedes (g : Registry) (d e : MethodId) : Prop :=
  ∃ md me, g.methods.get? d = some md ∧ g.methods.get? e = some me ∧
    (md.owner = me.owner ∧ d < e ∨ md.owner.Nearer g.hierarchy me.owner)

theorem Precedes.asymm (F : g.hierarchy.Forest) (h : g.Precedes d e) : ¬ g.Precedes e d := by
  rintro ⟨me', md', he', hd', h'⟩
  obtain ⟨md, me, hd, he, h⟩ := h
  cases hd.symm.trans hd'
  cases he.symm.trans he'
  rcases h with ⟨ho, hlt⟩ | hnear
  · rcases h' with ⟨-, hlt'⟩ | hnear'
    · exact Nat.lt_asymm hlt hlt'
    · rw [ho] at hnear'
      exact hnear'.asymm F hnear'
  · rcases h' with ⟨ho, -⟩ | hnear'
    · rw [ho] at hnear
      exact hnear.asymm F hnear
    · exact hnear.asymm F hnear'

theorem pairwise_overloads (L : g.methods.Listed) (k : Name) (o : MethodOwner) :
    (g.methods.overloads k o).Pairwise g.Precedes := by
  refine (L.pairwise_overloads k o).imp_of_mem fun {d e} hd he hde => ?_
  obtain ⟨md, hmd, -, rfl⟩ := L.mem_overloads.1 hd
  obtain ⟨me, hme, -, ho⟩ := L.mem_overloads.1 he
  exact ⟨md, me, hmd, hme, .inl ⟨ho.symm, hde⟩⟩

/-- The candidates of a call are in order: nearer owners first, then earlier definitions. -/
theorem pairwise_candidates (L : g.methods.Listed) (t : TypeTable) (k : Name)
    (receiver : Option TypeId) :
    (g.methods.candidates g.hierarchy t k receiver).Pairwise g.Precedes := by
  cases receiver with
  | none => exact g.pairwise_overloads L k .free
  | some a =>
    refine List.pairwise_flatMap.2 ⟨fun o _ => g.pairwise_overloads L k o, ?_⟩
    refine (MethodTable.pairwise_lookupOrder g.hierarchy (t.shape a)).imp
      fun {o p} hop d hd e he => ?_
    obtain ⟨md, hmd, -, rfl⟩ := L.mem_overloads.1 hd
    obtain ⟨me, hme, -, rfl⟩ := L.mem_overloads.1 he
    exact ⟨md, me, hmd, hme, .inr hop⟩

theorem Sound.nodup_candidates (S : g.Sound t) {receiver : Option TypeId} :
    (g.methods.candidates g.hierarchy t k receiver).Nodup :=
  (g.pairwise_candidates S.listed t k receiver).imp fun {a b} hab (hne : a = b) =>
    hab.asymm S.rooted.toForest (hne ▸ hab)

end Registry

/-! ## Ties -/

namespace Choice

variable {α : Type} {P : α → Prop} {R N S : α → α → Prop} {b d e : α} {best r : Option α}
  {ms l₁ l₂ l₃ : List α}

/-- Going through two lists, one after the other. -/
theorem append (h : Choice P R best (l₁ ++ l₂) r) :
    ∃ b, Choice P R best l₁ b ∧ Choice P R b l₂ r := by
  induction l₁ generalizing best with
  | nil => exact ⟨best, .done, h⟩
  | cons m l ih =>
    cases h with
    | skip hm h =>
      obtain ⟨b, hb, hr⟩ := ih h
      exact ⟨b, .skip hm hb, hr⟩
    | first hm h =>
      obtain ⟨b, hb, hr⟩ := ih h
      exact ⟨b, .first hm hb, hr⟩
    | replace hm hmb h =>
      obtain ⟨b, hb, hr⟩ := ih h
      exact ⟨b, .replace hm hmb hb, hr⟩
    | keep hm hmb h =>
      obtain ⟨b, hb, hr⟩ := ih h
      exact ⟨b, .keep hm hmb hb, hr⟩

/-- What is kept after something with `P` has been met: this, or what it did not replace. -/
theorem exists_of_cons (hd : P d) (h : Choice P R best (d :: ms) r) :
    ∃ b, (b = d ∨ best = some b ∧ ¬ R d b) ∧ Choice P R (some b) ms r := by
  cases h with
  | skip hm => exact absurd hd hm
  | first _ h | replace _ _ h => exact ⟨d, .inl rfl, h⟩
  | keep _ hmb h => exact ⟨_, .inr ⟨rfl, hmb⟩, h⟩

variable (htrans : ∀ {a b c}, N a b → N b c → N a c) (hR : ∀ {a b}, R a b ↔ N a b ∧ ¬ S a b)
  (hS : Equivalence S) (hSN : ∀ {a b}, S a b → N a b)
include htrans hR hS hSN

/-- What is the same as something before it is not kept in the end, unless something between them
has the place of that in between. -/
theorem ne_later (hd : P d) (hde : S d e) (hnodup : (l₁ ++ d :: (l₂ ++ e :: l₃)).Nodup)
    (hbetween : ∀ c ∈ l₂, P c → N c d → N d c → S d c) :
    ¬ Choice P R none (l₁ ++ d :: (l₂ ++ e :: l₃)) (some e) := by
  intro h
  have he : e ∉ (l₁ ++ d :: l₂) ++ l₃ := by
    rw [← List.cons_append, ← List.append_assoc] at hnodup
    exact (List.nodup_cons.1 (List.nodup_middle.1 hnodup)).1
  simp only [List.mem_append, List.mem_cons, not_or] at he
  obtain ⟨⟨hl₁, hed, hl₂⟩, hl₃⟩ := he
  obtain ⟨best, hbest, h⟩ := h.append
  obtain ⟨b, hb, h⟩ := h.exists_of_cons hd
  obtain ⟨best', hbest', h⟩ := h.append
  obtain ⟨b', rfl⟩ := Option.isSome_iff_exists.1 (hbest'.isSome_iff.2 (.inl rfl))
  have hbe : b ≠ e := by
    rcases hb with rfl | ⟨rfl, -⟩
    · exact Ne.symm hed
    · obtain ⟨⟨⟩⟩ | hmem := hbest.mem
      exact fun hbe => hl₁ (hbe ▸ hmem.1)
  have hb'e : b' ≠ e := by
    rcases hbest'.mem with hb' | hmem
    · exact Option.some.inj hb' ▸ hbe
    · exact fun hb'e => hl₂ (hb'e ▸ hmem.1)
  cases h with
  | skip _ h | keep _ _ h =>
    rcases h.mem with hmem | hmem
    · exact hb'e (Option.some.inj hmem)
    · exact hl₃ hmem.1
  | replace _ heb' _ =>
    obtain ⟨heb', hnot⟩ := hR.1 heb'
    have hb'b : N b' b := hbest'.le (fun a => hSN (hS.refl a)) htrans fun h => (hR.1 h).1
    have hdb' : N d b' := htrans (hSN hde) heb'
    -- What is kept after `d` is the same as `d`.
    have hdb : S d b := by
      rcases hb with rfl | ⟨-, hnotb⟩
      · exact hS.refl b
      · by_contra hdb
        exact hnotb (hR.2 ⟨htrans hdb' hb'b, hdb⟩)
    have hsame : S d b' := by
      rcases hbest'.mem with hb' | ⟨hmem, hP⟩
      · exact Option.some.inj hb' ▸ hdb
      · exact hbetween b' hmem hP (htrans hb'b (hSN (hS.symm hdb))) hdb'
    exact hnot (hS.trans (hS.symm hde) hsame)

end Choice

namespace Registry

variable {g : Registry} {t : TypeTable} {receiver : Option TypeId} {args : List TypeId}
  {c d e : MethodId} {k : Name} {n : Nat}

/-- The first `n` parameters of two methods have the same restrictions. -/
def SameRestrictions (g : Registry) (t : TypeTable) (receiver : Option TypeId) (n : Nat)
    (d e : MethodId) : Prop :=
  ∀ i < n, ∃ r u v, g.restriction d i receiver t = (r, u) ∧ g.restriction e i receiver u = (r, v)

theorem sameRestrictions_iff_run : g.SameRestrictions t receiver n d e ↔
    ∀ i < n, (g.restriction d i receiver t).1 =
      (g.restriction e i receiver (g.restriction d i receiver t).2).1 := by
  refine forall₂_congr fun i _ => ⟨?_, fun h => ?_⟩
  · rintro ⟨r, u, v, hrun, hrun'⟩
    rw [hrun, hrun']
  · exact ⟨(g.restriction d i receiver t).1, (g.restriction d i receiver t).2,
      (g.restriction e i receiver (g.restriction d i receiver t).2).2, rfl, Prod.ext h.symm rfl⟩

instance : Decidable (g.SameRestrictions t receiver n d e) :=
  decidable_of_iff _ sameRestrictions_iff_run.symm

/-- The first `n` parameters of two methods have the same bounds. -/
def SameBounds (g : Registry) (t : TypeTable) (receiver : Option TypeId) (n : Nat)
    (d e : MethodId) : Prop :=
  ∀ i < n, g.bound t receiver d i = g.bound t receiver e i

theorem SameBounds.equivalence (g : Registry) (t : TypeTable) (receiver : Option TypeId) (n : Nat) :
    Equivalence (g.SameBounds t receiver n) where
  refl _ _ _ := rfl
  symm h i hi := (h i hi).symm
  trans h h' i hi := (h i hi).trans (h' i hi)

theorem SameBounds.noWider (h : g.SameBounds t receiver n d e) : g.NoWider t receiver n d e :=
  fun i hi => .of_eq (h i hi)

theorem better_iff : g.Better t receiver n d e ↔
    g.NoWider t receiver n d e ∧ ¬ g.SameBounds t receiver n d e := by
  refine and_congr_right fun _ => ?_
  simp only [SameBounds, not_forall, exists_prop]

theorem sameRestrictions_iff (H : t.WF) (D : g.Described t) (hr : ∀ a ∈ receiver, t.Has a) :
    g.SameRestrictions t receiver n d e ↔ g.SameBounds t receiver n d e := by
  rw [sameRestrictions_iff_run]
  refine forall₂_congr fun i _ => ?_
  have hd := restriction_spec H D hr H (le_refl t) d i
  have he := restriction_spec H D hr hd.wf hd.le e i
  rw [← hd.post.1, ← he.post.1,
    ← he.wf.map_members_inj (fun a ha => (hd.post.2 a ha).mono he.le) he.post.2,
    Option.map_congr fun a ha => (hd.post.2 a ha).members_eq he.le]

/-- A candidate comes before another just if it precedes it; and if they have the same restrictions,
and those between them that have the same subtypes have the same restrictions too, the later one is
not picked. -/
theorem pick_overrides (hg : g.Reachable t) (k : Name) (hr : ∀ a ∈ receiver, t.Has a)
    (ha : ∀ a ∈ args, t.Has a) :
    let candidates := g.methods.candidates g.hierarchy t k receiver
    (∀ d e, [d, e].Sublist candidates ↔ d ∈ candidates ∧ e ∈ candidates ∧ g.Precedes d e) ∧
    ∀ d e, [d, e].Sublist candidates →
      g.Applicable t receiver args d → g.Applicable t receiver args e →
      g.SameRestrictions t receiver args.length d e →
      (∀ c, [d, c, e].Sublist candidates → g.Applicable t receiver args c →
        g.AtLeastAsSpecific t receiver args.length c d →
        g.AtLeastAsSpecific t receiver args.length d c →
        g.SameRestrictions t receiver args.length d c) →
      (g.pick k receiver args t).1 ≠ .ok (.method e) := by
  have S := hg.sound
  have H := S.types
  have D := S.restrictions
  have hcandidates := g.pairwise_candidates S.listed t k receiver
  have hasymm (d e) (h : g.Precedes d e) : ¬ g.Precedes e d := h.asymm S.rooted.toForest
  refine ⟨fun d e => ⟨fun h => ?_, fun ⟨hd, he, h⟩ => hcandidates.sublist_pair hasymm hd he h⟩, ?_⟩
  · exact ⟨h.subset (by simp), h.subset (by simp), List.pairwise_iff_forall_sublist.1 hcandidates h⟩
  simp only [pick_eq_method_iff H D hr ha, applicable_iff H D hr ha, atLeastAsSpecific_iff H D hr,
    sameRestrictions_iff H D hr, ne_eq]
  intro d e hde hd he hsame hbetween
  have hnodup : (g.fitting t k receiver args.length).Nodup := S.nodup_candidates.filter _
  have hsub : [d, e].Sublist (g.fitting t k receiver args.length) := by
    have := hde.filter (g.acceptsArity · args.length)
    simp only [List.filter_cons, hd.1, he.1, if_true, List.filter_nil] at this
    exact this
  obtain ⟨l₁, l₂, l₃, heq⟩ := List.exists_of_sublist_pair hsub
  rw [heq] at hnodup ⊢
  refine Choice.ne_later (fun h h' => h.trans S.rooted h') better_iff
    (SameBounds.equivalence g t receiver args.length) SameBounds.noWider hd.2 hsame hnodup
    fun c hc htakes => hbetween c ?_ ⟨?_, htakes⟩
  · have hdce : [d, c, e].Sublist (g.fitting t k receiver args.length) := by
      rw [heq]
      refine .trans (.cons_cons d ?_) (List.sublist_append_right l₁ _)
      exact List.Sublist.append (List.singleton_sublist.2 hc) (List.Sublist.cons_cons e (List.nil_sublist l₃))
    exact hdce.trans (List.filter_sublist)
  · exact (mem_fitting.1 (heq ▸ by simp [hc] : c ∈ g.fitting t k receiver args.length)).2

/-- A method on any object, one on the objects of the receiver's class, and one on any object that is
inherited. -/
def inheriting : Registry × TypeTable :=
  family [(some (.instances ⟨10⟩), [.named ⟨4⟩]), (some (.instances ⟨10⟩), [.self]),
    (some (.instances ⟨9⟩), [.named ⟨4⟩])]

/-- The inherited one is not picked. -/
theorem pick_overrides_inherited :
    let g := inheriting.1
    let t := inheriting.2
    g.Reachable t ∧ g.methods.candidates g.hierarchy t ⟨11⟩ (some ⟨14⟩) = [⟨0⟩, ⟨1⟩, ⟨2⟩] ∧
      g.SameRestrictions t (some ⟨14⟩) 1 ⟨0⟩ ⟨2⟩ ∧
      (g.pick ⟨11⟩ (some ⟨14⟩) [.int] t).1 ≠ .ok (.method ⟨2⟩) :=
  have hcandidates : inheriting.1.methods.candidates inheriting.1.hierarchy inheriting.2 ⟨11⟩
    (some ⟨14⟩) = [⟨0⟩, ⟨1⟩, ⟨2⟩] := by decide +kernel
  have hsame : inheriting.1.SameRestrictions inheriting.2 (some ⟨14⟩) 1 ⟨0⟩ ⟨2⟩ := by
    decide +kernel
  have hbetween : ∀ c ∈ [(⟨0⟩ : MethodId), ⟨1⟩, ⟨2⟩],
      inheriting.1.Applicable inheriting.2 (some ⟨14⟩) [.int] c →
        inheriting.1.SameRestrictions inheriting.2 (some ⟨14⟩) 1 ⟨0⟩ c := by
    decide +kernel
  have hr : ∀ a ∈ some (⟨14⟩ : TypeId), inheriting.2.Has a := by decide +kernel
  have ha : ∀ a ∈ [TypeId.int], inheriting.2.Has a := by decide +kernel
  have hnot := (pick_overrides (family_reachable _) ⟨11⟩ hr ha).2 ⟨0⟩ ⟨2⟩ (by decide +kernel)
    (by decide +kernel) (by decide +kernel) hsame fun c hc happ _ _ =>
      hbetween c (hcandidates ▸ hc.subset (by simp)) happ
  ⟨family_reachable _, hcandidates, hsame, hnot⟩

/-- A method on any object, one on any object or a number, and one on any object that is inherited. -/
def redundant : Registry × TypeTable :=
  family [(some (.instances ⟨10⟩), [.named ⟨4⟩]),
    (some (.instances ⟨10⟩), [.union [.named ⟨4⟩, .named ⟨7⟩]]),
    (some (.instances ⟨9⟩), [.named ⟨4⟩])]

/-- The inherited method is picked, though the first has the same restriction: the second takes the
place of the first, as its restriction is a subtype and another type, and the third that of the
second. -/
theorem pick_inherited :
    let g := redundant.1
    let t := redundant.2
    g.Reachable t ∧ g.methods.candidates g.hierarchy t ⟨11⟩ (some ⟨14⟩) = [⟨0⟩, ⟨1⟩, ⟨2⟩] ∧
      g.Applicable t (some ⟨14⟩) [.int] ⟨0⟩ ∧ g.Applicable t (some ⟨14⟩) [.int] ⟨2⟩ ∧
      g.SameRestrictions t (some ⟨14⟩) 1 ⟨0⟩ ⟨2⟩ ∧
      (g.pick ⟨11⟩ (some ⟨14⟩) [.int] t).1 = .ok (.method ⟨2⟩) :=
  ⟨family_reachable _, by decide +kernel, by decide +kernel, by decide +kernel, by decide +kernel,
    by decide +kernel⟩

end Registry

end Multimethod
