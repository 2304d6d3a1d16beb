import Multimethod.Proofs.Type.Settles

/-!
# Types of values

A value is an instance of one class or a class object, so the types that inference gives have only
such members (`Values`). Over finitely many classes there are finitely many of them
(`Values.length_le`), and a type that is properly wider than another has more members
(`Inside.length_lt`).
-/

namespace Multimethod

/-- The instances of one class, or one class object, among the first `n` classes. -/
def Shape.IsValue (n : Nat) : Shape → Prop
  | .exact c | .classObject c => c.index < n
  | _ => False

namespace Shape

variable {n : Nat} {s s' : Shape}

theorem IsValue.isMember (h : s.IsValue n) : s.IsMember := by
  cases s <;> first | exact h.elim | trivial

theorem IsValue.mono {m : Nat} (h : s.IsValue n) (hle : n ≤ m) : s.IsValue m := by
  cases s with
  | exact c | classObject c => exact Nat.lt_of_lt_of_le h hle
  | _ => exact h

/-- The shapes of values as numbers. -/
def rank : Shape → Nat
  | .exact c => 2 * c.index
  | .classObject c => 2 * c.index + 1
  | _ => 0

theorem IsValue.rank_lt (h : s.IsValue n) : s.rank < 2 * n := by
  cases s <;> simp only [IsValue, rank] at h ⊢ <;> omega

theorem IsValue.rank_inj (h : s.IsValue n) (h' : s'.IsValue n) (hr : s.rank = s'.rank) :
    s = s' := by
  cases s <;> cases s' <;> simp only [IsValue, rank] at h h' hr <;> first
    | exact congrArg _ (Handle.ext_index (by omega))
    | omega

end Shape

namespace TypeTable

variable {t u : TypeTable} {n : Nat} {a b c m : TypeId}

/-! ## Wider types -/

/-- Every member of `a` is a member of `b`. -/
def Inside (t : TypeTable) (a b : TypeId) : Prop :=
  t.Has a ∧ t.Has b ∧ ∀ m ∈ t.members a, m ∈ t.members b

/-- The members of `c` are those of `a` and those of `b`. -/
def Joins (t : TypeTable) (a b c : TypeId) : Prop :=
  t.Has a ∧ t.Has b ∧ t.Has c ∧ ∀ m, m ∈ t.members c ↔ m ∈ t.members a ∨ m ∈ t.members b

namespace Inside

theorem refl (h : t.Has a) : t.Inside a a := ⟨h, h, fun _ hm => hm⟩

theorem trans (h : t.Inside a b) (h' : t.Inside b c) : t.Inside a c :=
  ⟨h.1, h'.2.1, fun m hm => h'.2.2 m (h.2.2 m hm)⟩

theorem mono (h : t.Inside a b) (hle : t ≤ u) : u.Inside a b := by
  refine ⟨h.1.mono hle, h.2.1.mono hle, ?_⟩
  rw [h.1.members_eq hle, h.2.1.members_eq hle]
  exact h.2.2

theorem never (H : t.WF) (h : t.Has a) : t.Inside .never a :=
  ⟨H.has_never, h, by simp [H.members_never]⟩

theorem antisymm (H : t.WF) (h : t.Inside a b) (h' : t.Inside b a) : a = b :=
  H.ext_members h.1 h.2.1 fun m => ⟨h.2.2 m, h'.2.2 m⟩

theorem eq_never (H : t.WF) (h : t.Inside a .never) : a = .never :=
  h.antisymm H (never H h.1)

theorem length_le (H : t.WF) (h : t.Inside a b) :
    (t.members a).length ≤ (t.members b).length :=
  (H.nodup_members.subperm h.2.2).length_le

theorem length_lt (H : t.WF) (h : t.Inside a b) (hne : a ≠ b) :
    (t.members a).length < (t.members b).length := by
  by_contra hlt
  have hp := (H.nodup_members.subperm h.2.2).perm_of_length_le (Nat.le_of_not_lt hlt)
  exact hne (H.ext_members h.1 h.2.1 fun m => hp.mem_iff)

end Inside

namespace Joins

theorem left (h : t.Joins a b c) : t.Inside a c :=
  ⟨h.1, h.2.2.1, fun m hm => (h.2.2.2 m).2 (.inl hm)⟩

theorem right (h : t.Joins a b c) : t.Inside b c :=
  ⟨h.2.1, h.2.2.1, fun m hm => (h.2.2.2 m).2 (.inr hm)⟩

theorem mono (h : t.Joins a b c) (hle : t ≤ u) : u.Joins a b c := by
  obtain ⟨ha, hb, hc, hm⟩ := h
  refine ⟨ha.mono hle, hb.mono hle, hc.mono hle, ?_⟩
  rw [ha.members_eq hle, hb.members_eq hle, hc.members_eq hle]
  exact hm

/-- The union is the smallest type that has both. -/
theorem inside (h : t.Joins a b c) {d : TypeId} (ha : t.Inside a d) (hb : t.Inside b d) :
    t.Inside c d :=
  ⟨h.2.2.1, ha.2.1, fun m hm => ((h.2.2.2 m).1 hm).elim (ha.2.2 m) (hb.2.2 m)⟩

/-- A union is empty only if both parts are. -/
theorem eq_never (H : t.WF) (h : t.Joins a b .never) : a = .never ∧ b = .never :=
  ⟨h.left.eq_never H, h.right.eq_never H⟩

end Joins

theorem union_joins (H : t.WF) (ha : t.Has a) (hb : t.Has b) :
    Settles t (union a b) fun c u => u.Joins a b c :=
  (union_settles H ha hb).mono fun _ _ _ hle h => ⟨ha.mono hle, hb.mono hle, h⟩

theorem orNil_joins (H : t.WF) (ha : t.Has a) :
    Settles t (orNil a) fun c u => u.Joins a .nil c := union_joins H ha H.has_nil

/-! ## Types of values -/

/-- All members are types of values, of the first `n` classes. -/
def Values (t : TypeTable) (n : Nat) (a : TypeId) : Prop :=
  t.Has a ∧ ∀ m ∈ t.members a, (t.shape m).IsValue n

namespace Values

theorem mono (H : t.WF) (h : t.Values n a) (hle : t ≤ u) : u.Values n a := by
  refine ⟨h.1.mono hle, fun m hm => ?_⟩
  rw [h.1.members_eq hle] at hm
  rw [(H.isMember_of_mem h.1 hm).1.shape_eq hle]
  exact h.2 m hm

theorem of_shape (h : (t.shape a).IsValue n) : t.Values n a := by
  refine ⟨has_of_shape fun hs => by simp [hs, Shape.IsValue] at h, fun m hm => ?_⟩
  rw [members_of_isMember h.isMember, List.mem_singleton] at hm
  exact hm ▸ h

/-- Types of values stay so when types are added. -/
theorem isValue_mono (hle : t ≤ u) (h : (t.shape a).IsValue n) :
    (u.shape a).IsValue n := by
  rw [(of_shape h).1.shape_eq hle]
  exact h

theorem never (H : t.WF) : t.Values n .never := ⟨H.has_never, by simp [H.members_never]⟩

theorem of_joins (h : t.Joins a b c) (ha : t.Values n a) (hb : t.Values n b) : t.Values n c :=
  ⟨h.2.2.1, fun m hm => ((h.2.2.2 m).1 hm).elim (ha.2 m) (hb.2 m)⟩

theorem of_inside (h : t.Inside a b) (hb : t.Values n b) : t.Values n a :=
  ⟨h.1, fun m hm => hb.2 m (h.2.2 m hm)⟩

theorem splits (h : t.Values n a) (m) (hm : m ∈ t.members a) (c : ClassId) :
    t.shape m ≠ .below c := fun hs => by
  have := h.2 m hm
  rw [hs] at this
  exact this

/-- There are two types of values for each class. -/
theorem length_le (H : t.WF) (h : t.Values n a) : (t.members a).length ≤ 2 * n := by
  have hnd : ((t.members a).map fun m => (t.shape m).rank).Nodup := by
    refine List.Nodup.map_on (fun x hx y hy hr => ?_) H.nodup_members
    exact (H.isMember_of_mem h.1 hx).1.shape_inj (H.isMember_of_mem h.1 hy).1
      ((h.2 x hx).rank_inj (h.2 y hy) hr)
  have hsub : (t.members a).map (fun m => (t.shape m).rank) ⊆ List.range (2 * n) := by
    intro r hr
    obtain ⟨m, hm, rfl⟩ := List.mem_map.1 hr
    exact List.mem_range.2 (h.2 m hm).rank_lt
  simpa using (hnd.subperm hsub).length_le

section
variable (H : t.WF) (hn : 5 ≤ n)
include H hn

theorem object : t.Values n .object :=
  of_shape (by rw [H.shape_object]; exact Nat.lt_of_lt_of_le (by decide) hn)

theorem nil : t.Values n .nil :=
  of_shape (by rw [H.shape_nil]; exact Nat.lt_of_lt_of_le (by decide) hn)

theorem bool : t.Values n .bool :=
  of_shape (by rw [H.shape_bool]; exact Nat.lt_of_lt_of_le (by decide) hn)

theorem int : t.Values n .int :=
  of_shape (by rw [H.shape_int]; exact Nat.lt_of_lt_of_le (by decide) hn)

theorem float : t.Values n .float :=
  of_shape (by rw [H.shape_float]; exact Nat.lt_of_lt_of_le (by decide) hn)

end

end Values

end TypeTable

end Multimethod
