import Multimethod.Proofs.Hierarchy.Reachable

/-!
# Subtyping is a preorder with joins

A member is below another by one of three rules (`ShapeBelow`), which compose since the classes are
one tree (`ShapeBelow.trans`). So subtyping, which asks that every member be below one, is a preorder
on the types of a reachable hierarchy, in which a union is a join and the root is above all but the
placeholder for the receiver (`reachable_subtyping`).
-/

namespace Multimethod.Hierarchy

open Relation TypeTable

variable {h : Hierarchy} {t u : TypeTable} {a b c m n : TypeId} {s s' s'' : Shape}

/-! ## Members -/

/-- The rules by which a member is below another, by their shapes. -/
inductive ShapeBelow (h : Hierarchy) : Shape → Shape → Prop where
  | instances {s s' : Shape} {c d : ClassId} (hs : s.instanceClass? = some c)
      (hs' : s'.instanceClass? = some d) (hcd : ReflTransGen h.Up c d) : ShapeBelow h s s'
  | classObjects {c d : ClassId} (hcd : ReflTransGen h.Up c d) :
    ShapeBelow h (.classObject c) (.classObject d)
  | object {c : ClassId} {s' : Shape} (hs' : s'.instanceClass? = some .object) :
    ShapeBelow h (.classObject c) s'

theorem Rooted.shapeBelow_iff (R : h.Rooted) : h.shapeBelow s s' = true ↔ h.ShapeBelow s s' := by
  constructor
  · intro hb
    unfold shapeBelow at hb
    split at hb
    case h_1 | h_2 | h_3 | h_4 => exact .instances rfl rfl (R.isBelow_iff.1 hb)
    case h_5 => exact .classObjects (R.isBelow_iff.1 hb)
    case h_6 | h_7 =>
      obtain rfl := of_decide_eq_true hb
      exact .object rfl
    case h_8 => cases hb
  · intro hb
    cases hb with
    | @instances s s' c d hs hs' hcd =>
      have := R.isBelow_iff.2 hcd
      cases s <;> cases hs <;> cases s' <;> cases hs' <;> exact this
    | classObjects hcd => exact R.isBelow_iff.2 hcd
    | @object c s' hs' => cases s' <;> cases hs' <;> rfl

/-- The rules compose: only the root is above the root, and it has no class object. -/
theorem ShapeBelow.trans (R : h.Rooted) (hb : h.ShapeBelow s s') (hb' : h.ShapeBelow s' s'') :
    h.ShapeBelow s s'' := by
  cases hb with
  | instances hs hs' hcd =>
    cases hb' with
    | instances hs₁ hs₂ hde =>
      cases hs'.symm.trans hs₁
      exact .instances hs hs₂ (hcd.trans hde)
    | classObjects => cases hs'
    | object => cases hs'
  | classObjects hcd =>
    cases hb' with
    | instances hs₁ => cases hs₁
    | classObjects hde => exact .classObjects (hcd.trans hde)
    | object hs₂ => exact .object hs₂
  | object hs' =>
    cases hb' with
    | instances hs₁ hs₂ hde =>
      cases hs'.symm.trans hs₁
      cases R.eq_object hde
      exact .object hs₂
    | classObjects => cases hs'
    | object => cases hs'

theorem Rooted.memberBelow_iff (R : h.Rooted) :
    h.memberBelow t m n = true ↔ m = n ∨ h.ShapeBelow (t.shape m) (t.shape n) := by
  rw [memberBelow, Bool.or_eq_true, decide_eq_true_iff, R.shapeBelow_iff]

theorem Rooted.memberBelow_trans (R : h.Rooted) {k : TypeId} (hmn : h.memberBelow t m n = true)
    (hnk : h.memberBelow t n k = true) : h.memberBelow t m k = true := by
  rw [R.memberBelow_iff] at hmn hnk ⊢
  rcases hmn with rfl | hmn
  · exact hnk
  · rcases hnk with rfl | hnk
    · exact .inr hmn
    · exact .inr (hmn.trans R hnk)

/-! ## Types -/

theorem isSubtype_refl (a : TypeId) : h.isSubtype t a a = true :=
  (h.isSubtype_iff).2 fun m hm => ⟨m, hm, by simp [memberBelow]⟩

theorem Rooted.isSubtype_trans (R : h.Rooted) (hab : h.isSubtype t a b = true)
    (hbc : h.isSubtype t b c = true) : h.isSubtype t a c = true := by
  rw [isSubtype_iff] at hab hbc ⊢
  intro m hm
  obtain ⟨n, hn, hmn⟩ := hab m hm
  obtain ⟨k, hk, hnk⟩ := hbc n hn
  exact ⟨k, hk, R.memberBelow_trans hmn hnk⟩

/-- A type made up of the members of some types is below what they all are below. -/
theorem isSubtype_iff_forall {as : List TypeId}
    (hm : ∀ m, m ∈ t.members c ↔ ∃ a ∈ as, m ∈ t.members a) :
    h.isSubtype t c b = true ↔ ∀ a ∈ as, h.isSubtype t a b = true := by
  simp only [isSubtype_iff, hm]
  constructor
  · exact fun hc a ha m hma => hc m ⟨a, ha, hma⟩
  · rintro hall m ⟨a, ha, hma⟩
    exact hall a ha m hma

theorem isSubtype_union_left (H : t.WF) {ms : List TypeId} (hs : t.shape a = .union ms) :
    h.isSubtype t a b = true ↔ ∀ m ∈ ms, h.isSubtype t m b = true :=
  isSubtype_iff_forall fun _ => H.mem_members_of_union hs

theorem isSubtype_union_right (H : t.WF) (ha : (t.shape a).IsMember) {ns : List TypeId}
    (hs : t.shape b = .union ns) :
    h.isSubtype t a b = true ↔ ∃ n ∈ ns, h.isSubtype t a n = true := by
  simp only [isSubtype_iff, members_of_isMember ha, List.mem_singleton, forall_eq,
    H.mem_members_of_union hs]
  constructor
  · rintro ⟨m, ⟨n, hn, hm⟩, hb⟩
    exact ⟨n, hn, m, hm, hb⟩
  · rintro ⟨n, hn, m, hm, hb⟩
    exact ⟨m, ⟨n, hn, hm⟩, hb⟩

/-- How two types compare by their shapes, the left one being taken apart first. -/
theorem isSubtype_eq (H : t.WF) : h.isSubtype t a b =
    (a = b || match t.shape a, t.shape b with
      | .never, _ => true
      | .union ms, _ => ms.all (h.isSubtype t · b)
      | _, .union ns => ns.any (h.isSubtype t a ·)
      | s, s' => h.shapeBelow s s') := by
  by_cases he : a = b
  · simp [he, isSubtype_refl]
  have member {s : Shape} (hn : s ≠ .never) (hu : ∀ ms, s ≠ .union ms) : s.IsMember := by
    cases s with
    | never => exact hn rfl
    | union ms => exact hu ms rfl
    | _ => trivial
  simp only [he, decide_false, Bool.false_or]
  rw [Bool.eq_iff_iff]
  split
  case h_1 hs => simp [isSubtype_iff, members, hs]
  case h_2 ms hs => simp [isSubtype_union_left H hs]
  case h_3 ns hs hnever hunion => simp [isSubtype_union_right H (member hnever hunion) hs]
  case h_4 hnever hunion hright =>
    simp only [isSubtype_iff, members_of_isMember (member hnever hunion), List.mem_singleton,
      forall_eq]
    cases hsb : t.shape b with
    | never => cases hsa : t.shape a <;> simp [members, hsb, shapeBelow]
    | union ns => exact (hright ns hsb).elim
    | _ => simp [members, hsb, memberBelow, he]

/-! ## Joins and the root -/

/-- The classes that a type names are classes of the hierarchy. -/
def Over (h : Hierarchy) (t : TypeTable) (a : TypeId) : Prop :=
  ∀ m ∈ t.members a, ∀ c,
    (t.shape m).instanceClass? = some c ∨ t.shape m = .classObject c → c.index < h.size

/-- Nothing but the placeholder is not below the root. -/
theorem Rooted.isSubtype_object (R : h.Rooted) (H : t.WF) (ha : t.Has a) (hover : h.Over t a)
    (hself : (t.flags a).hasSelf = false) : h.isSubtype t a .object = true := by
  rw [isSubtype_iff]
  intro m hm
  obtain ⟨hhas, hmember⟩ := H.isMember_of_mem ha hm
  refine ⟨.object, ?_, R.memberBelow_iff.2 (.inr ?_)⟩
  · exact mem_members_self (by rw [H.shape_object]; trivial)
  rw [H.shape_object]
  cases hs : t.shape m with
  | exact c => exact .instances rfl rfl (R.below_object (hover m hm c (.inl (by rw [hs]; rfl))))
  | below c => exact .instances rfl rfl (R.below_object (hover m hm c (.inl (by rw [hs]; rfl))))
  | classObject c => exact .object rfl
  | self =>
    obtain rfl : m = .self := hhas.shape_inj H.has_self (hs.trans H.shape_self.symm)
    rw [(H.flag_hasSelf ha).2 hm] at hself
    cases hself
  | never | union => rw [hs] at hmember; exact hmember.elim

/-- Subtyping on the types of a table: a preorder whose joins are unions, with a least type and,
but for the placeholder, a greatest. -/
structure Subtyping (h : Hierarchy) (t : TypeTable) : Prop where
  refl : ∀ a, h.isSubtype t a a
  trans : ∀ a b c, h.isSubtype t a b → h.isSubtype t b c → h.isSubtype t a c
  union : ∀ a b, t.Has a → t.Has b → ∀ c,
    (h.isSubtype (union a b t).2 (union a b t).1 c ↔
      h.isSubtype (union a b t).2 a c ∧ h.isSubtype (union a b t).2 b c)
  unionOf : ∀ as, (∀ a ∈ as, t.Has a) → ∀ c,
    (h.isSubtype (unionOf as t).2 (unionOf as t).1 c ↔ ∀ a ∈ as, h.isSubtype (unionOf as t).2 a c)
  keeps : ∀ u, Later t u → ∀ a b, t.Has a → t.Has b → h.isSubtype u a b = h.isSubtype t a b
  never : ∀ a, h.isSubtype t .never a
  eq_never : ∀ a, t.Has a → h.isSubtype t a .never → a = .never
  object : ∀ a, t.Has a → h.Over t a → (t.flags a).hasSelf = false → h.isSubtype t a .object

/-- Subtyping is a preorder with joins on every table of types that can be reached. -/
theorem reachable_subtyping (hr : Reachable h t) : h.Subtyping t := by
  have R := hr.described.rooted
  have H := hr.described.types
  constructor
  case refl => exact isSubtype_refl
  case trans => exact fun a b c => R.isSubtype_trans
  case union =>
    intro a b ha hb c
    have hs := union_settles H ha hb
    have hmembers (m : TypeId) : m ∈ (TypeTable.union a b t).2.members (TypeTable.union a b t).1 ↔
        ∃ d ∈ [a, b], m ∈ (TypeTable.union a b t).2.members d := by
      simpa using hs.post.2 m
    rw [isSubtype_iff_forall hmembers]
    simp
  case unionOf =>
    intro as has c
    exact isSubtype_iff_forall (unionOf_settles H has).post.2
  case keeps => exact fun u hu a b ha hb => h.isSubtype_mono H ha hb (hu.grows H).2
  case never =>
    intro a
    rw [isSubtype_iff, H.members_never]
    nofun
  case eq_never =>
    intro a ha hsub
    rw [isSubtype_iff, H.members_never] at hsub
    refine (H.members_eq_nil ha).1 (List.eq_nil_iff_forall_not_mem.2 fun m hm => ?_)
    obtain ⟨n, hn, -⟩ := hsub m hm
    cases hn
  case object => exact fun a ha hover hself => R.isSubtype_object H ha hover hself

/-- The first of the two classes, whose clause was followed, is below the second. -/
theorem reachable_subtyping_crossed : Reachable crossed.1 crossed.2 ∧ crossed.1.Subtyping crossed.2 ∧
    crossed.2.shape ⟨12⟩ = .exact ⟨5⟩ ∧ crossed.2.shape ⟨14⟩ = .exact ⟨6⟩ ∧
      crossed.1.isSubtype crossed.2 ⟨12⟩ ⟨14⟩ = true ∧
        crossed.1.isSubtype crossed.2 ⟨14⟩ ⟨12⟩ = false :=
  ⟨crossed_reachable, reachable_subtyping crossed_reachable, by decide +kernel⟩

end Multimethod.Hierarchy
