import Multimethod.Proofs.Type.Table

/-!
# Flags

The flags of a type are computed when it is described, those of a union from those of its members.
In a well-formed table they say exactly what kinds of members a type has.
-/

namespace Multimethod

/-- A flag that a union has if and only if one of its members has it. -/
structure Flags.Inherited (g : Flags → Bool) : Prop where
  addMember : ∀ f f', g (f.addMember f') = (g f || g f')
  never : g { never := true } = false
  union : g { union := true } = false

namespace TypeTable

variable {t : TypeTable} {a m : TypeId} {s : Shape} {g : Flags → Bool}

theorem foldl_addMember (hg : ∀ f f', g (f.addMember f') = (g f || g f')) (l : List TypeId)
    (f : Flags) : g (l.foldl (fun f m => f.addMember (t.flags m)) f) =
      (g f || l.any fun m => g (t.flags m)) := by
  induction l generalizing f with
  | nil => simp
  | cons m l ih => rw [List.foldl_cons, ih, hg, List.any_cons, Bool.or_assoc]

/-- Members do not make a type empty or a union. -/
theorem foldl_addMember_own (hg : ∀ f f', g (f.addMember f') = g f) (l : List TypeId) (f : Flags) :
    g (l.foldl (fun f m => f.addMember (t.flags m)) f) = g f := by
  induction l generalizing f with
  | nil => rfl
  | cons m l ih => rw [List.foldl_cons, ih, hg]

namespace WF

variable (H : t.WF) (ha : t.Has a)
include H ha

/-- A flag that unions inherit is that of some member. -/
theorem flag_iff (hg : Flags.Inherited g) :
    g (t.flags a) = true ↔ ∃ m ∈ t.members a, g (t.flags m) = true := by
  cases hs : t.shape a with
  | never => simp [members, hs, H.flags_eq ha, flagsOf, hg.never]
  | union ms => simp [members, hs, H.flags_eq ha, flagsOf, foldl_addMember hg.addMember, hg.union]
  | _ => simp [members, hs]

/-- If a flag tells which members have some shape, it tells which types have such members. -/
theorem flag_iff_shape (hg : Flags.Inherited g) {P : Shape → Prop}
    (hP : ∀ s : Shape, s.IsMember → (g (t.flagsOf s) = true ↔ P s)) :
    g (t.flags a) = true ↔ ∃ m ∈ t.members a, P (t.shape m) := by
  rw [H.flag_iff ha hg]
  refine exists_congr fun m => and_congr_right fun hm => ?_
  obtain ⟨hhas, hmember⟩ := H.isMember_of_mem ha hm
  rw [H.flags_eq hhas, hP _ hmember]

theorem exists_mem_shape (hm : t.Has m) :
    (∃ n ∈ t.members a, t.shape n = t.shape m) ↔ m ∈ t.members a := by
  constructor
  · rintro ⟨n, hn, hs⟩
    rwa [← (H.isMember_of_mem ha hn).1.shape_inj hm hs]
  · exact fun h => ⟨m, h, rfl⟩

theorem flag_nilable : (t.flags a).nilable = true ↔ .nil ∈ t.members a := by
  rw [← H.exists_mem_shape ha H.has_nil, H.shape_nil]
  apply H.flag_iff_shape ha (P := (· = .exact .nil)) ⟨fun _ _ => rfl, rfl, rfl⟩
  intro s hs
  cases s <;> simp_all [flagsOf, Shape.IsMember]

theorem flag_hasSelf : (t.flags a).hasSelf = true ↔ .self ∈ t.members a := by
  rw [← H.exists_mem_shape ha H.has_self, H.shape_self]
  apply H.flag_iff_shape ha (P := (· = .self)) ⟨fun _ _ => rfl, rfl, rfl⟩
  intro s hs
  cases s <;> simp_all [flagsOf, Shape.IsMember]

theorem flag_below :
    (t.flags a).below = true ↔ ∃ m ∈ t.members a, ∃ c, t.shape m = .below c := by
  apply H.flag_iff_shape ha (P := fun s => ∃ c, s = .below c) ⟨fun _ _ => rfl, rfl, rfl⟩
  intro s hs
  cases s <;> simp_all [flagsOf, Shape.IsMember]

theorem flag_classObject :
    (t.flags a).classObject = true ↔ ∃ m ∈ t.members a, ∃ c, t.shape m = .classObject c := by
  apply H.flag_iff_shape ha (P := fun s => ∃ c, s = .classObject c) ⟨fun _ _ => rfl, rfl, rfl⟩
  intro s hs
  cases s <;> simp_all [flagsOf, Shape.IsMember]

theorem flag_never : (t.flags a).never = true ↔ a = .never := by
  rw [← H.shape_eq_never ha, H.flags_eq ha]
  cases hs : t.shape a with
  | union ms => simp [flagsOf, foldl_addMember_own (g := Flags.never) fun _ _ => rfl]
  | _ => simp [flagsOf]

theorem flag_union : (t.flags a).union = true ↔ ∃ ms, t.shape a = .union ms := by
  rw [H.flags_eq ha]
  cases hs : t.shape a with
  | union ms => simp [flagsOf, foldl_addMember_own (g := Flags.union) fun _ _ => rfl]
  | _ => simp [flagsOf]

end WF

end TypeTable

end Multimethod
