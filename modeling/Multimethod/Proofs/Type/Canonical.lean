import Multimethod.Proofs.Type.Reachable

/-!
# Type tables are canonical

In a reachable table a type is described once and a union has one form, so types with the same
members are the same; and what was described stays as it is. So union is a join, whatever it leaves
behind in the table (`reachable_canonical`).
-/

namespace Multimethod.TypeTable

variable {t u : TypeTable} {a b c : TypeId}

/-! ## Unions in a table -/

/-- Whether there are many or none, the members of a type make up this type. -/
theorem WF.ofMembers_members (H : t.WF) (ha : t.Has a) : ofMembers (t.members a) t = (a, t) := by
  cases hs : t.shape a with
  | never =>
    obtain rfl := (H.shape_eq_never ha).1 hs
    rw [H.members_never]
    rfl
  | union ms =>
    have hi := intern_shape ha
    have htwo := H.two_le hs
    rw [members, hs]
    rw [hs] at hi
    rcases ms with _ | ⟨m, _ | ⟨n, ms⟩⟩
    · cases htwo
    · exact absurd htwo (by simp)
    · exact hi
  | _ =>
    rw [members_of_isMember (by rw [hs]; trivial)]
    rfl

/-- A union is one of its members only. -/
theorem unionOf_congr {as bs : List TypeId}
    (h : ∀ m, (∃ a ∈ as, m ∈ t.members a) ↔ ∃ b ∈ bs, m ∈ t.members b) :
    unionOf as t = unionOf bs t := by
  show ofMembers (Handle.sorted _) t = ofMembers (Handle.sorted _) t
  rw [Handle.sorted_congr (m := bs.flatMap t.members) fun m => by simpa using h m]

/-- Types that together have the members of one type have it as their union. -/
theorem WF.unionOf_eq (H : t.WF) (ha : t.Has a) {as : List TypeId}
    (h : ∀ m, m ∈ t.members a ↔ ∃ b ∈ as, m ∈ t.members b) : unionOf as t = (a, t) := by
  show ofMembers (Handle.sorted _) t = _
  rw [Handle.sorted_congr (m := t.members a) fun m => by simpa using (h m).symm,
    Handle.sorted_eq_self H.pairwise_members, H.ofMembers_members ha]

/-- The union of two types is that of their list, also where it is known at once. -/
theorem WF.union_eq_unionOf (H : t.WF) (ha : t.Has a) (hb : t.Has b) :
    union a b t = unionOf [a, b] t := by
  unfold union
  split
  · rename_i h
    refine (H.unionOf_eq ha fun m => ?_).symm
    rcases h with rfl | rfl
    · simp
    · simp [H.members_never]
  · split
    · rename_i h
      subst h
      exact (H.unionOf_eq hb fun m => by simp [H.members_never]).symm
    · rfl

theorem WF.union_comm (H : t.WF) (ha : t.Has a) (hb : t.Has b) : union a b t = union b a t := by
  rw [H.union_eq_unionOf ha hb, H.union_eq_unionOf hb ha]
  exact unionOf_congr fun m => by simp [or_comm]

theorem union_self (a : TypeId) : union a a t = (a, t) := by
  rw [union, if_pos (.inl rfl)]
  rfl

theorem union_never (a : TypeId) : union a .never t = (a, t) := by
  rw [union, if_pos (.inr rfl)]
  rfl

/-! ## Unions of unions -/

/-- From `t`, the computation `x` gives the type with the members `P`. -/
abbrev Gives (t : TypeTable) (x : StateM TypeTable TypeId) (P : TypeId → Prop) : Prop :=
  Settles t x fun d u => u.Has d ∧ ∀ m, m ∈ u.members d ↔ P m

/-- A type with the same members is the same, even if it is computed later on. -/
theorem Gives.unique {x y : StateM TypeTable TypeId} {P : TypeId → Prop} (hx : t.Gives x P)
    (hle : (x t).2 ≤ u) (hy : u.Gives y P) : (y u).1 = (x t).1 := by
  obtain ⟨hd, hm⟩ := hx.post
  obtain ⟨he, hm'⟩ := hy.post
  have hle' := le_trans hle hy.le
  apply hy.wf.ext_members he (hd.mono hle')
  intro m
  rw [hm', hd.members_eq hle', hm]

theorem gives_union_left (H : t.WF) (ha : t.Has a) (hb : t.Has b) (hc : t.Has c) :
    t.Gives (do union (← union a b) c)
      fun m => m ∈ t.members a ∨ m ∈ t.members b ∨ m ∈ t.members c := by
  refine (union_settles H ha hb).bind fun d u hu hle ⟨hd, hm⟩ => ?_
  refine (union_settles hu hd (hc.mono hle)).mono fun e v _ hle' ⟨he, hm'⟩ => ⟨he, fun m => ?_⟩
  have hle'' := le_trans hle hle'
  rw [hm', hd.members_eq hle', hm, ha.members_eq hle, hb.members_eq hle, hc.members_eq hle'',
    or_assoc]

theorem gives_union_right (H : t.WF) (ha : t.Has a) (hb : t.Has b) (hc : t.Has c) :
    t.Gives (do union a (← union b c))
      fun m => m ∈ t.members a ∨ m ∈ t.members b ∨ m ∈ t.members c := by
  refine (union_settles H hb hc).bind fun d u hu hle ⟨hd, hm⟩ => ?_
  refine (union_settles hu (ha.mono hle) hd).mono fun e v _ hle' ⟨he, hm'⟩ => ⟨he, fun m => ?_⟩
  have hle'' := le_trans hle hle'
  rw [hm', hd.members_eq hle', hm, hb.members_eq hle, hc.members_eq hle, ha.members_eq hle'']

/-- Unions may be bracketed in any way: in every later table the other way gives the same type. -/
theorem WF.union_assoc (H : t.WF) (ha : t.Has a) (hb : t.Has b) (hc : t.Has c)
    (h : Later ((do union (← union a b) c) t).2 u) :
    ((do union a (← union b c)) u).1 = ((do union (← union a b) c) t).1 := by
  have hleft := gives_union_left H ha hb hc
  obtain ⟨hu, hle⟩ := h.grows hleft.wf
  have htu := le_trans hleft.le hle
  have hright := gives_union_right hu (ha.mono htu) (hb.mono htu) (hc.mono htu)
  rw [ha.members_eq htu, hb.members_eq htu, hc.members_eq htu] at hright
  exact hleft.unique hle hright

/-! ## Canonical tables -/

/-- The types of `t` keep their shapes and flags in `u`. -/
structure Keeps (t u : TypeTable) : Prop where
  has : ∀ a, t.Has a → u.Has a
  shape : ∀ a, t.Has a → u.shape a = t.shape a
  flags : ∀ a, t.Has a → u.flags a = t.flags a

theorem keeps_of_le (hle : t ≤ u) : t.Keeps u where
  has _ h := h.mono hle
  shape _ h := h.shape_eq hle
  flags _ h := h.flags_eq hle

/-- Union, with its shortcuts, is that of a list, and it is a join. -/
structure UnionLaws (t : TypeTable) : Prop where
  unionOf : ∀ a b, t.Has a → t.Has b → union a b t = unionOf [a, b] t
  comm : ∀ a b, t.Has a → t.Has b → union a b t = union b a t
  assoc : ∀ a b c, t.Has a → t.Has b → t.Has c → ∀ u, Later ((do union (← union a b) c) t).2 u →
    ((do union a (← union b c)) u).1 = ((do union (← union a b) c) t).1
  self : ∀ a, t.Has a → union a a t = (a, t)
  never : ∀ a, t.Has a → union a .never t = (a, t) ∧ union .never a t = (a, t)

/-- Unions are in normal form, the table finds just what it holds, nothing is described twice or
changed later on, and types are told apart by their members. -/
structure Canonical (t : TypeTable) : Prop where
  normal : ∀ a ms, t.shape a = .union ms → 2 ≤ ms.length ∧ ms.Pairwise (· < ·) ∧
    ∀ m ∈ ms, m < a ∧ t.Has m ∧ t.shape m ≠ .never ∧ ∀ ns, t.shape m ≠ .union ns
  find?_iff : ∀ s a, t.find? s = some a ↔ t.Has a ∧ t.shape a = s
  shape_inj : ∀ a b, t.Has a → t.Has b → t.shape a = t.shape b → a = b
  keeps : ∀ u, Later t u → t.Keeps u
  eq_iff : ∀ a b, t.Has a → t.Has b → (a = b ↔ ∀ m, m ∈ t.members a ↔ m ∈ t.members b)
  members : ∀ as, (∀ a ∈ as, t.Has a) →
    ((unionOf as t).2.members (unionOf as t).1).Pairwise (· < ·) ∧
      ∀ m, m ∈ (unionOf as t).2.members (unionOf as t).1 ↔ ∃ a ∈ as, m ∈ t.members a
  laws : t.UnionLaws

/-- Every table of types that can be reached is canonical. -/
theorem reachable_canonical (h : t.Reachable) : t.Canonical := by
  have H := h.wf
  constructor
  case normal =>
    intro a ms hs
    refine ⟨H.two_le hs, H.increasing hs, fun m hm => ?_⟩
    obtain ⟨hhas, hmember⟩ := H.isMember hs m hm
    refine ⟨H.smaller hs m hm, hhas, ?_, ?_⟩
    · intro hn
      simp [hn, Shape.IsMember] at hmember
    · intro ns hn
      simp [hn, Shape.IsMember] at hmember
  case find?_iff => exact fun s a => find?_eq_some
  case shape_inj => exact fun a b => Has.shape_inj
  case keeps => exact fun u hu => keeps_of_le (hu.grows H).2
  case eq_iff =>
    intro a b ha hb
    constructor
    · rintro rfl m
      rfl
    · exact H.ext_members ha hb
  case members =>
    intro as has
    have hs := unionOf_settles H has
    refine ⟨hs.wf.pairwise_members, fun m => ?_⟩
    rw [hs.post.2]
    exact exists_congr fun a => and_congr_right fun ha => by rw [(has a ha).members_eq hs.le]
  case laws =>
    exact {
      unionOf := fun a b ha hb => H.union_eq_unionOf ha hb
      comm := fun a b ha hb => H.union_comm ha hb
      assoc := fun a b c ha hb hc u hu => H.union_assoc ha hb hc hu
      self := fun a _ => union_self a
      never := fun a ha => ⟨union_never a, by rw [H.union_comm H.has_never ha, union_never]⟩ }

/-- The table in which numbers have been joined, and then made nilable. -/
def numbers : TypeTable := ((do orNil (← union .int .float)) initial).2

theorem reachable_canonical_numbers : numbers.Reachable ∧ numbers.Canonical := by
  have h : numbers.Reachable :=
    .tail (.single (Step.run (o := .union .int .float) (by decide)))
      (Step.run (o := .orNil ⟨7⟩) (by decide))
  exact ⟨h, reachable_canonical h⟩

/-- With `nil` the union gets a handle of its own, whichever was joined first. -/
example : ((do union .float (← orNil .int)) numbers).1 = ⟨8⟩ ∧ numbers.size = 9 := by decide +kernel

end Multimethod.TypeTable
