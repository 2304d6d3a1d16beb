import Mathlib.Tactic
import Multimethod.Type.Table

/-!
# Tables of types that only grow

`t ≤ u` says that `u` describes every type of `t` as `t` does. A table is well formed (`WF`) if
its unions are normalized and its flags are those of its shapes; then a type is determined by its
members (`WF.ext_members`).
-/

namespace Multimethod

/-- The shape of a member of a union: neither empty nor a union. -/
def Shape.IsMember : Shape → Prop
  | .never | .union _ => False
  | _ => True

namespace TypeTable

variable {t u v : TypeTable} {a b m : TypeId} {s : Shape}

/-- `u` describes every type of `t` as `t` does. -/
instance : LE TypeTable :=
  ⟨fun t u => ∀ i e, t.entries.get? i = some e → u.entries.get? i = some e⟩

theorem le_refl (t : TypeTable) : t ≤ t := fun _ _ h => h

theorem le_trans (h : t ≤ u) (h' : u ≤ v) : t ≤ v := fun i e he => h' i e (h i e he)

/-- The type `a` is described in the table. -/
def Has (t : TypeTable) (a : TypeId) : Prop := a.index < t.size

instance (t : TypeTable) (a : TypeId) : Decidable (t.Has a) :=
  inferInstanceAs (Decidable (a.index < t.size))

theorem has_iff : t.Has a ↔ ∃ e, t.entries.get? a.index = some e := by
  simp only [Has, size, Catalog.size, Catalog.get?]
  constructor
  · intro h
    exact ⟨_, Array.getElem?_eq_getElem h⟩
  · rintro ⟨e, he⟩
    exact (Array.getElem?_eq_some_iff.1 he).1

theorem Has.mono (h : t.Has a) (hle : t ≤ u) : u.Has a := by
  obtain ⟨e, he⟩ := has_iff.1 h
  exact has_iff.2 ⟨e, hle _ _ he⟩

theorem Has.shape_eq (h : t.Has a) (hle : t ≤ u) : u.shape a = t.shape a := by
  obtain ⟨e, he⟩ := has_iff.1 h
  simp [shape, he, hle _ _ he]

theorem Has.flags_eq (h : t.Has a) (hle : t ≤ u) : u.flags a = t.flags a := by
  obtain ⟨e, he⟩ := has_iff.1 h
  simp [flags, he, hle _ _ he]

theorem Has.members_eq (h : t.Has a) (hle : t ≤ u) : u.members a = t.members a := by
  simp [members, h.shape_eq hle]

theorem has_of_shape (h : t.shape a ≠ .never) : t.Has a := by
  by_contra hn
  have : t.entries.get? a.index = none := by
    cases he : t.entries.get? a.index with
    | none => rfl
    | some e => exact absurd (has_iff.2 ⟨e, he⟩) hn
  simp [shape, this] at h

/-- A shape is described once. -/
theorem Has.shape_inj (ha : t.Has a) (hb : t.Has b) (h : t.shape a = t.shape b) : a = b := by
  obtain ⟨e, he⟩ := has_iff.1 ha
  obtain ⟨f, hf⟩ := has_iff.1 hb
  simp only [shape, he, hf, Option.map_some, Option.getD_some] at h
  have h1 : t.entries.find? e.shape.code = some a.index :=
    Catalog.find?_eq_some.2 (by rw [he]; rfl)
  have h2 : t.entries.find? e.shape.code = some b.index :=
    Catalog.find?_eq_some.2 (by rw [hf, h]; rfl)
  exact Handle.ext_index (Option.some.inj (h1.symm.trans h2))

theorem find?_eq_some : t.find? s = some a ↔ t.Has a ∧ t.shape a = s := by
  simp only [find?, Option.map_eq_some_iff, Catalog.find?_eq_some]
  constructor
  · rintro ⟨i, ⟨e, he, hc⟩, rfl⟩
    exact ⟨has_iff.2 ⟨e, he⟩, by simp [shape, he, Shape.code_inj.1 hc]⟩
  · rintro ⟨h, hs⟩
    obtain ⟨e, he⟩ := has_iff.1 h
    refine ⟨a.index, ⟨e, he, ?_⟩, rfl⟩
    rw [← hs, shape, he]; rfl

theorem find?_mono (hle : t ≤ u) (h : t.find? s = some a) : u.find? s = some a := by
  obtain ⟨ha, hs⟩ := find?_eq_some.1 h
  exact find?_eq_some.2 ⟨ha.mono hle, (ha.shape_eq hle).trans hs⟩

/-! ## Well-formed tables -/

/-- The predefined types are there, unions have two or more members, which are described before
them and increasing and neither unions nor empty, and the flags are those of the shapes. -/
structure WF (t : TypeTable) : Prop where
  initial_le : initial ≤ t
  two_le : ∀ {a ms}, t.shape a = .union ms → 2 ≤ ms.length
  increasing : ∀ {a ms}, t.shape a = .union ms → ms.Pairwise (· < ·)
  smaller : ∀ {a ms}, t.shape a = .union ms → ∀ m ∈ ms, m < a
  isMember : ∀ {a ms}, t.shape a = .union ms → ∀ m ∈ ms, t.Has m ∧ (t.shape m).IsMember
  flags_eq : ∀ {a}, t.Has a → t.flags a = t.flagsOf (t.shape a)

section
variable (H : t.WF)
include H

theorem WF.has_initial (h : initial.Has a) : t.Has a := h.mono H.initial_le

theorem WF.shape_initial (h : initial.Has a) : t.shape a = initial.shape a :=
  h.shape_eq H.initial_le

theorem WF.has_never : t.Has .never := H.has_initial (by decide)

theorem WF.has_object : t.Has .object := H.has_initial (by decide)

theorem WF.has_nil : t.Has .nil := H.has_initial (by decide)

theorem WF.has_self : t.Has .self := H.has_initial (by decide)

theorem WF.shape_never : t.shape .never = .never := H.shape_initial (by decide)

theorem WF.shape_object : t.shape .object = .exact .object := H.shape_initial (by decide)

theorem WF.shape_nil : t.shape .nil = .exact .nil := H.shape_initial (by decide)

theorem WF.shape_bool : t.shape .bool = .exact .bool := H.shape_initial (by decide)

theorem WF.shape_int : t.shape .int = .exact .int := H.shape_initial (by decide)

theorem WF.shape_float : t.shape .float = .exact .float := H.shape_initial (by decide)

theorem WF.shape_self : t.shape .self = .self := H.shape_initial (by decide)

theorem WF.shape_eq_never (h : t.Has a) : t.shape a = .never ↔ a = .never := by
  refine ⟨fun hs => h.shape_inj H.has_never (hs.trans H.shape_never.symm), ?_⟩
  rintro rfl
  exact H.shape_never

@[simp] theorem WF.members_never : t.members .never = [] := by simp [members, H.shape_never]

end

theorem members_of_isMember (h : (t.shape a).IsMember) : t.members a = [a] := by
  cases hs : t.shape a <;> simp_all [members, Shape.IsMember]

theorem has_of_mem (h : m ∈ t.members a) : t.Has a :=
  has_of_shape fun hs => by simp [members, hs] at h

theorem mem_members_self (h : (t.shape a).IsMember) : a ∈ t.members a := by
  simp [members_of_isMember h]

theorem has_of_isMember (h : (t.shape a).IsMember) : t.Has a := has_of_mem (mem_members_self h)

theorem WF.members_eq_nil (H : t.WF) (h : t.Has a) : t.members a = [] ↔ a = .never := by
  rw [← H.shape_eq_never h]
  cases hs : t.shape a with
  | union ms =>
    have := H.two_le hs
    simp only [members, hs, reduceCtorEq, iff_false]
    rintro rfl
    simp at this
  | _ => simp [members, hs]

theorem WF.isMember_of_mem (H : t.WF) (h : t.Has a) (hm : m ∈ t.members a) :
    t.Has m ∧ (t.shape m).IsMember := by
  cases hs : t.shape a with
  | never => simp [members, hs] at hm
  | union ms =>
    simp only [members, hs] at hm
    exact H.isMember hs m hm
  | _ =>
    simp only [members, hs, List.mem_singleton] at hm
    subst hm
    exact ⟨h, by simp [hs, Shape.IsMember]⟩

theorem WF.pairwise_members (H : t.WF) : (t.members a).Pairwise (· < ·) := by
  cases hs : t.shape a with
  | union ms => simpa [members, hs] using H.increasing hs
  | _ => simp [members, hs]

theorem WF.nodup_members (H : t.WF) : (t.members a).Nodup :=
  H.pairwise_members.imp fun h => by
    rintro rfl
    exact Nat.lt_irrefl _ h

theorem WF.mem_members_of_union (H : t.WF) {ms : List TypeId} (hs : t.shape a = .union ms) :
    m ∈ t.members a ↔ ∃ k ∈ ms, m ∈ t.members k := by
  have ha : t.members a = ms := by simp [members, hs]
  have hself (k : TypeId) (hk : k ∈ ms) : t.members k = [k] :=
    members_of_isMember (H.isMember hs k hk).2
  rw [ha]
  constructor
  · intro hm
    exact ⟨m, hm, by simp [hself m hm]⟩
  · rintro ⟨k, hk, hm⟩
    rw [hself k hk, List.mem_singleton] at hm
    exact hm ▸ hk

/-- A type is determined by its members. -/
theorem WF.ext_members (H : t.WF) (ha : t.Has a) (hb : t.Has b)
    (h : ∀ m, m ∈ t.members a ↔ m ∈ t.members b) : a = b := by
  have he : t.members a = t.members b :=
    Handle.eq_of_mem_iff H.pairwise_members H.pairwise_members h
  by_cases hl : t.members a = []
  · exact ((H.members_eq_nil ha).1 hl).trans ((H.members_eq_nil hb).1 (he ▸ hl)).symm
  cases hs : t.shape a with
  | never => simp [members, hs] at hl
  | union ms =>
    cases hs' : t.shape b with
    | never => simp [members, hs', hs] at he hl; exact absurd he hl
    | union ms' =>
      simp only [members, hs, hs'] at he
      exact ha.shape_inj hb (by rw [hs, hs', he])
    | _ =>
      have := H.two_le hs
      simp only [members, hs, hs'] at he
      simp [he] at this
  | _ =>
    have hma : t.members a = [a] := by simp [members, hs]
    cases hs' : t.shape b with
    | never => simp [members, hs', hs] at he
    | union ms' =>
      have := H.two_le hs'
      simp only [members, hs, hs'] at he
      simp [← he] at this
    | _ =>
      have hmb : t.members b = [b] := by simp [members, hs']
      simpa [hma, hmb] using he

/-- A type is determined by the shapes of its members. -/
theorem WF.ext_shapes (H : t.WF) (ha : t.Has a) (hb : t.Has b)
    (h : ∀ s, (∃ m ∈ t.members a, t.shape m = s) ↔ ∃ m ∈ t.members b, t.shape m = s) : a = b := by
  have mem {a b m : TypeId} (ha : t.Has a) (hb : t.Has b) (hm : m ∈ t.members a)
      (h : ∃ n ∈ t.members b, t.shape n = t.shape m) : m ∈ t.members b := by
    obtain ⟨n, hn, hs⟩ := h
    rwa [← (H.isMember_of_mem hb hn).1.shape_inj (H.isMember_of_mem ha hm).1 hs]
  apply H.ext_members ha hb
  intro m
  exact ⟨fun hm => mem ha hb hm ((h _).1 ⟨m, hm, rfl⟩),
    fun hm => mem hb ha hm ((h _).2 ⟨m, hm, rfl⟩)⟩

theorem WF.flagsOf_mono (H : t.WF) (hle : t ≤ u) :
    u.flagsOf (t.shape a) = t.flagsOf (t.shape a) := by
  cases hs : t.shape a with
  | union ms =>
    have hm := H.isMember hs
    simp only [flagsOf]
    refine List.foldl_ext _ _ _ fun f m hmem => ?_
    rw [(hm m hmem).1.flags_eq hle]
  | _ => rfl

/-! ## The first table -/

theorem initial_shapes : initial.entries.entries = #[⟨.never, { never := true }⟩,
    ⟨.exact .object, {}⟩, ⟨.exact .nil, { nilable := true }⟩, ⟨.exact .bool, {}⟩,
    ⟨.exact .int, {}⟩, ⟨.exact .float, {}⟩, ⟨.self, { hasSelf := true }⟩] := by decide +kernel

theorem shape_initial_ne_union {a : TypeId} {ms : List TypeId} : initial.shape a ≠ .union ms := by
  simp only [shape, Catalog.get?, initial_shapes]
  intro h
  match a with
  | ⟨0⟩ | ⟨1⟩ | ⟨2⟩ | ⟨3⟩ | ⟨4⟩ | ⟨5⟩ | ⟨6⟩ => simp at h
  | ⟨_ + 7⟩ => simp at h

theorem initial_wf : initial.WF where
  initial_le := le_refl _
  two_le h := absurd h shape_initial_ne_union
  increasing h := absurd h shape_initial_ne_union
  smaller h := absurd h shape_initial_ne_union
  isMember h := absurd h shape_initial_ne_union
  flags_eq {a} h := by
    have hlt : a.index < 7 := by
      have : initial.size = 7 := by rw [size, Catalog.size, initial_shapes]; rfl
      exact this ▸ h
    match a with
    | ⟨0⟩ | ⟨1⟩ | ⟨2⟩ | ⟨3⟩ | ⟨4⟩ | ⟨5⟩ | ⟨6⟩ =>
      simp only [flags, shape, Catalog.get?, initial_shapes]
      rfl
    | ⟨_ + 7⟩ => simp at hlt

end TypeTable

end Multimethod
