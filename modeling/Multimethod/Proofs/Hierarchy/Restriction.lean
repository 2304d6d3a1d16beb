import Multimethod.Hierarchy.Restriction
import Multimethod.Proofs.Hierarchy.Subtype
import Multimethod.Proofs.Type.Sequence

/-!
# What written restrictions stand for

A written restriction denotes a set of shapes (`Hierarchy.Denotes`). If classes have all the names in
it, it is resolved to a type with members of just these shapes, and else the leftmost name that no
class has is the complaint (`Hierarchy.resolveRestriction_stands`). So a restriction that is resolved
names classes of the hierarchy only (`Hierarchy.Stands.toOver`).
-/

namespace Multimethod

namespace Restriction

mutual

/-- The names in a restriction, from left to right. -/
def names : Restriction → List Name
  | .named n => [n]
  | .nilable r => r.names
  | .union rs => namesOf rs
  | .self => []

/-- The names in some restrictions, from left to right. -/
def namesOf : List Restriction → List Name
  | [] => []
  | r :: rs => r.names ++ namesOf rs

end

end Restriction

namespace Hierarchy

open TypeTable

variable {h : Hierarchy} {t u : TypeTable} {r : Restriction} {s : Shape} {a : TypeId}

/-- What a restriction denotes: a name the instances of its class, `?` one more shape, `|` what its
parts do. -/
inductive Denotes (h : Hierarchy) : Restriction → Shape → Prop where
  | named {n : Name} {c : ClassId} (hc : h.find? n = some c) : Denotes h (.named n) (.exact c)
  | inner {r : Restriction} {s : Shape} (hs : Denotes h r s) : Denotes h (.nilable r) s
  | nil {r : Restriction} : Denotes h (.nilable r) (.exact .nil)
  | part {rs : List Restriction} {r : Restriction} {s : Shape} (hr : r ∈ rs) (hs : Denotes h r s) :
    Denotes h (.union rs) s
  | self : Denotes h .self .self

theorem denotes_named {n : Name} {c : ClassId} (hc : h.find? n = some c) :
    h.Denotes (.named n) s ↔ s = .exact c := by
  constructor
  · rintro (hc' | _)
    rw [Option.some.inj (hc.symm.trans hc')]
  · rintro rfl
    exact .named hc

theorem denotes_nilable : h.Denotes (.nilable r) s ↔ h.Denotes r s ∨ s = .exact .nil := by
  constructor
  · rintro (_ | hs | _)
    · exact .inl hs
    · exact .inr rfl
  · rintro (hs | rfl)
    · exact .inner hs
    · exact .nil

theorem denotes_union {rs : List Restriction} :
    h.Denotes (.union rs) s ↔ ∃ r ∈ rs, h.Denotes r s := by
  constructor
  · rintro (_ | _ | _ | ⟨hr, hs⟩)
    exact ⟨_, hr, hs⟩
  · rintro ⟨r, hr, hs⟩
    exact .part hr hs

theorem denotes_self : h.Denotes .self s ↔ s = .self := by
  constructor
  · rintro ⟨⟩
    rfl
  · rintro rfl
    exact .self

/-- Only classes of the hierarchy are denoted. -/
theorem Denotes.lt_size (hd : h.Denotes r s) (hsize : 2 ≤ h.size) {c : ClassId}
    (hc : s.instanceClass? = some c ∨ s = .classObject c) : c.index < h.size := by
  induction hd with
  | named hn =>
    obtain hc | ⟨⟨⟩⟩ := hc
    cases hc
    exact find?_lt hn
  | inner _ ih | part _ _ ih => exact ih hc
  | nil =>
    obtain hc | ⟨⟨⟩⟩ := hc
    cases hc
    exact hsize
  | self => obtain ⟨⟨⟩⟩ | ⟨⟨⟩⟩ := hc

/-- The type `a` is described, and its members have the shapes that the restriction denotes. -/
def Stands (h : Hierarchy) (r : Restriction) (a : TypeId) (t : TypeTable) : Prop :=
  t.Has a ∧ ∀ s, (∃ m ∈ t.members a, t.shape m = s) ↔ h.Denotes r s

namespace Stands

theorem mono (H : t.WF) (hs : h.Stands r a t) (hle : t ≤ u) : h.Stands r a u := by
  refine ⟨hs.1.mono hle, fun s => ?_⟩
  rw [← hs.2 s, hs.1.members_eq hle]
  exact exists_congr fun m => and_congr_right fun hm => by
    rw [(H.isMember_of_mem hs.1 hm).1.shape_eq hle]

theorem toOver (hs : h.Stands r a t) (hsize : 2 ≤ h.size) : h.Over t a :=
  fun m hm _ hc => ((hs.2 _).1 ⟨m, hm, rfl⟩).lt_size hsize hc

theorem of_isMember (ha : t.Has a) (hm : (t.shape a).IsMember)
    (hd : ∀ s, h.Denotes r s ↔ s = t.shape a) : h.Stands r a t := by
  refine ⟨ha, fun s => ?_⟩
  rw [members_of_isMember hm, hd s]
  simp [eq_comm]

/-- Types that stand for the same shapes are the same, even if one of them is described later on. -/
theorem unique {h' : Hierarchy} {r' : Restriction} {b : TypeId} (H : t.WF) (ha : h.Stands r a t)
    (hle : t ≤ u) (hu : u.WF) (hb : h'.Stands r' b u)
    (hsame : ∀ s, h'.Denotes r' s ↔ h.Denotes r s) : b = a := by
  have ha := ha.mono H hle
  apply hu.ext_shapes hb.1 ha.1
  intro s
  rw [hb.2, ha.2, hsame]

/-- A name stands for the instances of its class. -/
theorem named {n : Name} (H : t.WF) (hs : h.Stands (.named n) a t) {c : ClassId}
    (hc : h.find? n = some c) : t.shape a = .exact c := by
  obtain ⟨m, hm, hmc⟩ := (hs.2 _).2 (.named hc)
  obtain ⟨hhas, hmember⟩ := H.isMember_of_mem hs.1 hm
  suffices a = m by rw [this, hmc]
  apply H.ext_shapes hs.1 hhas
  intro s
  rw [hs.2, denotes_named hc, members_of_isMember hmember]
  simp [hmc, eq_comm]

end Stands

/-! ## Names that no class has -/

variable (h) (names : NameTable) (span : Span)

/-- The leftmost of some names that no class has. -/
def unknown? (ns : List Name) : Option Name := ns.find? fun n => (h.find? n).isNone

/-- The complaint is that no class has the leftmost such name. -/
def Complains (ns : List Name) (e : TypeError) : Prop :=
  ∃ n, h.unknown? ns = some n ∧ e = ⟨.unknownType (names.text n), span⟩

variable {h names span} {ns ms : List Name} {e : TypeError}

theorem unknown?_eq_none : h.unknown? ns = none ↔ ∀ n ∈ ns, ∃ c, h.find? n = some c := by
  simp [unknown?, Option.ne_none_iff_exists']

theorem unknown?_append_of_none (hn : h.unknown? ns = none) :
    h.unknown? (ns ++ ms) = h.unknown? ms := by
  rw [unknown?, List.find?_append, show ns.find? _ = none from hn, Option.none_or]
  rfl

theorem Complains.append (he : h.Complains names span ns e) :
    h.Complains names span (ns ++ ms) e := by
  obtain ⟨n, hn, rfl⟩ := he
  refine ⟨n, ?_, rfl⟩
  rw [unknown?, List.find?_append, show ns.find? _ = some n from hn, Option.some_or]

/-! ## Resolving restrictions -/

variable (h names span)

mutual

/-- If all names in a restriction are known, then the type that it is resolved to has the members
that it denotes. -/
theorem resolveRestriction_stands : ∀ (r : Restriction) {t : TypeTable}, t.WF →
    Settles t (h.resolveRestriction names span r).run
      (Ends (fun a u => h.Stands r a u ∧ h.unknown? r.names = none)
        fun e _ => h.Complains names span r.names e)
  | .named n, t, H => by
    simp only [resolveRestriction, requireClass]
    cases hc : h.find? n with
    | none => exact .pure H ⟨n, by simp [unknown?, Restriction.names, hc], rfl⟩
    | some c =>
      refine ((exact_settles H c).mono ?_).lift
      rintro a u - - ⟨ha, hs⟩
      refine ⟨.of_isMember ha (by rw [hs]; trivial) fun s => ?_, ?_⟩
      · rw [hs, denotes_named hc]
      · simp [unknown?, Restriction.names, hc]
  | .nilable r, t, H => by
    simp only [resolveRestriction]
    refine (resolveRestriction_stands r H).bindExcept (fun a u hu _ ha => ?_) fun _ _ _ _ he => he
    obtain ⟨ha, hknown⟩ := ha
    refine ((orNil_settles hu ha.1).mono ?_).lift
    rintro b v hv hle ⟨hb, hmem⟩
    refine ⟨⟨hb, fun s => ?_⟩, hknown⟩
    rw [denotes_nilable, ← (ha.mono hu hle).2 s]
    simp only [hmem, or_and_right, exists_or, exists_eq_left, hv.shape_nil, eq_comm]
  | .union rs, t, H => by
    simp only [resolveRestriction]
    refine (resolveRestrictions_stand rs H).bindExcept (fun as u hu _ has => ?_)
      fun _ _ _ _ he => he
    obtain ⟨has, hknown⟩ := has
    have hhas : ∀ a ∈ as, u.Has a := fun a ha => by
      obtain ⟨r, -, hs⟩ := has.exists_of_mem_right ha
      exact hs.1
    refine ((unionOf_settles hu hhas).mono ?_).lift
    rintro b v - hle ⟨hb, hmem⟩
    refine ⟨⟨hb, fun s => ?_⟩, hknown⟩
    rw [denotes_union]
    simp only [hmem]
    constructor
    · rintro ⟨m, ⟨a, ha, hm⟩, hs⟩
      obtain ⟨r, hr, hstands⟩ := has.exists_of_mem_right ha
      exact ⟨r, hr, ((hstands.mono hu hle).2 s).1 ⟨m, hm, hs⟩⟩
    · rintro ⟨r, hr, hs⟩
      obtain ⟨a, ha, hstands⟩ := has.exists_of_mem_left hr
      obtain ⟨m, hm, hs⟩ := ((hstands.mono hu hle).2 s).2 hs
      exact ⟨m, ⟨a, ha, hm⟩, hs⟩
  | .self, t, H => by
    refine .pure H ⟨.of_isMember H.has_self (by rw [H.shape_self]; trivial) fun s => ?_, rfl⟩
    rw [H.shape_self, denotes_self]

theorem resolveRestrictions_stand : ∀ (rs : List Restriction) {t : TypeTable}, t.WF →
    Settles t (h.resolveRestrictions names span rs).run
      (Ends (fun as u => List.Forall₂ (h.Stands · · u) rs as ∧
          h.unknown? (Restriction.namesOf rs) = none)
        fun e _ => h.Complains names span (Restriction.namesOf rs) e)
  | [], t, H => .pure H ⟨.nil, rfl⟩
  | r :: rs, t, H => by
    simp only [resolveRestrictions]
    refine (resolveRestriction_stands r H).bindExcept (fun a u hu _ ha => ?_)
      fun _ _ _ _ he => he.append
    obtain ⟨ha, hknown⟩ := ha
    have hnames : h.unknown? (Restriction.namesOf (r :: rs)) =
        h.unknown? (Restriction.namesOf rs) := unknown?_append_of_none hknown
    refine (resolveRestrictions_stand rs hu).bindExcept (fun as v hv hle has => ?_)
      fun e _ _ _ he => ?_
    · exact .pure hv ⟨.cons (ha.mono hu hle) has.1, hnames.trans has.2⟩
    · obtain ⟨n, hn, he⟩ := he
      exact ⟨n, hnames.trans hn, he⟩

end

end Hierarchy

end Multimethod
