import Multimethod.Proofs.Type.Canonical

/-!
# Types as sets of members

The operations on types look at flags before they look at members. As flags say exactly what the
members are, this makes no difference: each operation is one on sets of members, and two ways of
describing a type give the same one if they agree on its members (`reachable_memberwise`).
-/

namespace Multimethod.TypeTable

variable {t u : TypeTable} {a b c r m : TypeId} {P Q R : TypeId → Prop}

/-- The type `a` is described, and its members are those with `P`. -/
def Consists (t : TypeTable) (a : TypeId) (P : TypeId → Prop) : Prop :=
  t.Has a ∧ ∀ m, m ∈ t.members a ↔ P m

theorem Has.consists (ha : t.Has a) : t.Consists a (· ∈ t.members a) := ⟨ha, fun _ => .rfl⟩

theorem Consists.mono (ha : t.Consists a P) (hle : t ≤ u) : u.Consists a P :=
  ⟨ha.1.mono hle, by rw [ha.1.members_eq hle]; exact ha.2⟩

/-! ## Operations on members -/

theorem Consists.union (H : t.WF) (ha : t.Consists a P) (hb : t.Consists b Q) :
    t.Gives (union a b) fun m => P m ∨ Q m :=
  (union_settles H ha.1 hb.1).mono fun _ _ _ hle ⟨hc, hm⟩ => ⟨hc, fun m => by
    rw [hm, (ha.mono hle).2, (hb.mono hle).2]⟩

theorem Consists.orNil (H : t.WF) (ha : t.Consists a P) :
    t.Gives (orNil a) fun m => P m ∨ m = .nil :=
  (orNil_settles H ha.1).mono fun _ _ _ hle ⟨hc, hm⟩ => ⟨hc, fun m => by
    rw [hm, (ha.mono hle).2]⟩

theorem Consists.dropNil (H : t.WF) (ha : t.Consists a P) :
    t.Gives (dropNil a) fun m => P m ∧ m ≠ .nil :=
  (dropNil_settles H ha.1).mono fun _ _ _ hle ⟨hc, hm⟩ => ⟨hc, fun m => by
    rw [hm, (ha.mono hle).2]⟩

theorem Consists.forReceiver (H : t.WF) (ha : t.Consists a P) (hr : t.Consists r R) :
    t.Gives (forReceiver a r) fun m => P m ∧ m ≠ .self ∨ R m ∧ P .self :=
  (forReceiver_settles H ha.1 hr.1).mono fun _ _ _ hle ⟨hc, hm⟩ => ⟨hc, fun m => by
    rw [hm, (ha.mono hle).2, (ha.mono hle).2, (hr.mono hle).2]⟩

/-! ## One operation after another -/

namespace Gives

variable {x y : StateM TypeTable TypeId} {f : TypeId → StateM TypeTable TypeId}

theorem congr (hx : t.Gives x P) (h : ∀ m, P m ↔ Q m) : t.Gives x Q :=
  hx.mono fun _ _ _ _ ⟨ha, hm⟩ => ⟨ha, fun m => (hm m).trans (h m)⟩

theorem bind (hx : t.Gives x P)
    (hf : ∀ a u, u.WF → t ≤ u → u.Consists a P → u.Gives (f a) Q) : t.Gives (x >>= f) Q :=
  Settles.bind hx hf

end Gives

/-- Two ways of describing a type come to the same: whichever is followed first, in every later
table the other one gives its type. -/
def Same (t : TypeTable) (x y : StateM TypeTable TypeId) : Prop :=
  (∀ u, Later (x t).2 u → (y u).1 = (x t).1) ∧ ∀ u, Later (y t).2 u → (x u).1 = (y t).1

/-- What gives the same members gives the same type. -/
theorem same_of_gives {x y : StateM TypeTable TypeId} (H : t.WF)
    (hx : ∀ u : TypeTable, u.WF → t ≤ u → u.Gives x P)
    (hy : ∀ u : TypeTable, u.WF → t ≤ u → u.Gives y P) : t.Same x y := by
  have first {x y : StateM TypeTable TypeId} {u : TypeTable} (hx : t.Gives x P)
      (hy : ∀ u : TypeTable, u.WF → t ≤ u → u.Gives y P) (hu : Later (x t).2 u) :
      (y u).1 = (x t).1 := by
    obtain ⟨hwf, hle⟩ := hu.grows hx.wf
    exact hx.unique hle (hy u hwf (le_trans hx.le hle))
  have here := le_refl t
  exact ⟨fun u hu => first (hx t H here) hy hu, fun u hu => first (hy t H here) hx hu⟩

variable (H : t.WF)
include H

/-- `nil` may be taken away before or after types are joined. -/
theorem WF.dropNil_union (ha : t.Has a) (hb : t.Has b) :
    t.Same (do dropNil (← union a b)) (do union (← dropNil a) (← dropNil b)) := by
  refine same_of_gives (P := fun m => (m ∈ t.members a ∨ m ∈ t.members b) ∧ m ≠ .nil) H ?_ ?_
  · intro u hu hle
    have hunion := Consists.union hu (ha.consists.mono hle) (hb.consists.mono hle)
    exact hunion.bind fun c v hv _ hc => hc.dropNil hv
  · intro u hu hle
    refine ((ha.consists.mono hle).dropNil hu).bind fun c v hv hle' hc => ?_
    refine ((hb.consists.mono (le_trans hle hle')).dropNil hv).bind fun d w hw hle'' hd => ?_
    exact ((hc.mono hle'').union hw hd).congr fun m => or_and_right.symm

/-- The placeholder may be replaced before or after types are joined. -/
theorem WF.forReceiver_union (ha : t.Has a) (hb : t.Has b) (hr : t.Has r) :
    t.Same (do forReceiver (← union a b) r)
      (do union (← forReceiver a r) (← forReceiver b r)) := by
  refine same_of_gives (P := fun m => (m ∈ t.members a ∨ m ∈ t.members b) ∧ m ≠ .self ∨
    m ∈ t.members r ∧ (.self ∈ t.members a ∨ .self ∈ t.members b)) H ?_ ?_
  · intro u hu hle
    have hunion := Consists.union hu (ha.consists.mono hle) (hb.consists.mono hle)
    exact hunion.bind fun c v hv hle' hc =>
      hc.forReceiver hv (hr.consists.mono (le_trans hle hle'))
  · intro u hu hle
    have hr := hr.consists.mono hle
    refine ((ha.consists.mono hle).forReceiver hu hr).bind fun c v hv hle' hc => ?_
    refine ((hb.consists.mono (le_trans hle hle')).forReceiver hv (hr.mono hle')).bind
      fun d w hw hle'' hd => ?_
    refine ((hc.mono hle'').union hw hd).congr fun m => ?_
    rw [or_or_or_comm, ← or_and_right, ← and_or_left]

theorem WF.orNil_dropNil (ha : t.Has a) : t.Same (do orNil (← dropNil a)) (orNil a) := by
  refine same_of_gives (P := fun m => m ∈ t.members a ∨ m = .nil) H ?_ ?_
  · intro u hu hle
    refine ((ha.consists.mono hle).dropNil hu).bind fun c v hv _ hc => ?_
    refine (hc.orNil hv).congr fun m => ?_
    rw [and_or_right, and_iff_left (Decidable.not_or_self _)]
  · intro u hu hle
    exact (ha.consists.mono hle).orNil hu

/-- After the placeholder has been replaced by a type without it, there is none. -/
theorem WF.forReceiver_idem (ha : t.Has a) (hr : t.Has r) (hself : .self ∉ t.members r) :
    t.Same (do forReceiver (← forReceiver a r) r) (forReceiver a r) := by
  refine same_of_gives (P := fun m => m ∈ t.members a ∧ m ≠ .self ∨
    m ∈ t.members r ∧ .self ∈ t.members a) H ?_ ?_
  · intro u hu hle
    have hr := hr.consists.mono hle
    refine ((ha.consists.mono hle).forReceiver hu hr).bind fun c v hv hle' hc => ?_
    refine (hc.forReceiver hv (hr.mono hle')).congr fun m => ?_
    have hne : m ∈ t.members r → m ≠ .self := by
      rintro hm rfl
      exact hself hm
    tauto
  · intro u hu hle
    exact (ha.consists.mono hle).forReceiver hu (hr.consists.mono hle)

omit H

/-! ## Memberwise operations -/

/-- The flags of a type tell what its members are. -/
structure ExactFlags (t : TypeTable) (a : TypeId) : Prop where
  never : (t.flags a).never = true ↔ a = .never
  union : (t.flags a).union = true ↔ ∃ ms, t.shape a = .union ms
  nilable : (t.flags a).nilable = true ↔ .nil ∈ t.members a
  below : (t.flags a).below = true ↔ ∃ m ∈ t.members a, ∃ c, t.shape m = .below c
  classObject : (t.flags a).classObject = true ↔ ∃ m ∈ t.members a, ∃ c, t.shape m = .classObject c
  hasSelf : (t.flags a).hasSelf = true ↔ .self ∈ t.members a

/-- Operations on types are operations on sets of members, with what follows from that. -/
structure Memberwise (t : TypeTable) : Prop where
  flags : ∀ a, t.Has a → t.ExactFlags a
  dropNil : ∀ a, t.Has a → t.Gives (dropNil a) fun m => m ∈ t.members a ∧ m ≠ .nil
  orNil : ∀ a, t.Has a → t.Gives (orNil a) fun m => m ∈ t.members a ∨ m = .nil
  forReceiver : ∀ a r, t.Has a → t.Has r → t.Gives (forReceiver a r) fun m =>
    m ∈ t.members a ∧ m ≠ .self ∨ m ∈ t.members r ∧ .self ∈ t.members a
  dropNil_union : ∀ a b, t.Has a → t.Has b →
    t.Same (do TypeTable.dropNil (← union a b))
      (do union (← TypeTable.dropNil a) (← TypeTable.dropNil b))
  forReceiver_union : ∀ a b r, t.Has a → t.Has b → t.Has r →
    t.Same (do TypeTable.forReceiver (← union a b) r)
      (do union (← TypeTable.forReceiver a r) (← TypeTable.forReceiver b r))
  orNil_dropNil : ∀ a, t.Has a →
    t.Same (do TypeTable.orNil (← TypeTable.dropNil a)) (TypeTable.orNil a)
  forReceiver_idem : ∀ a r, t.Has a → t.Has r → .self ∉ t.members r →
    t.Same (do TypeTable.forReceiver (← TypeTable.forReceiver a r) r) (TypeTable.forReceiver a r)

/-- In every table of types that can be reached, flags are exact and operations are memberwise. -/
theorem reachable_memberwise (h : t.Reachable) : t.Memberwise := by
  have H := h.wf
  constructor
  case flags =>
    intro a ha
    exact {
      never := H.flag_never ha
      union := H.flag_union ha
      nilable := H.flag_nilable ha
      below := H.flag_below ha
      classObject := H.flag_classObject ha
      hasSelf := H.flag_hasSelf ha }
  case dropNil => exact fun a ha => ha.consists.dropNil H
  case orNil => exact fun a ha => ha.consists.orNil H
  case forReceiver => exact fun a r ha hr => ha.consists.forReceiver H hr.consists
  case dropNil_union => exact fun a b ha hb => H.dropNil_union ha hb
  case forReceiver_union => exact fun a b r ha hb hr => H.forReceiver_union ha hb hr
  case orNil_dropNil => exact fun a ha => H.orNil_dropNil ha
  case forReceiver_idem => exact fun a r ha hr hself => H.forReceiver_idem ha hr hself

/-- The table with a union that has members of every kind, and a union without the placeholder. -/
def mixed : TypeTable :=
  ((do
    let below ← below .object
    let classObject ← classObject .object
    let _ ← unionOf [.nil, .self, below, classObject]
    union .int .float) initial).2

theorem mixed_reachable : mixed.Reachable :=
  .tail (.tail (.tail (.single (Step.run (o := .below .object) (by decide)))
    (Step.run (o := .classObject .object) (by decide)))
      (Step.run (o := .unionOf [.nil, .self, ⟨7⟩, ⟨8⟩]) (by decide +kernel)))
        (Step.run (o := .union .int .float) (by decide +kernel))

/-- Only the placeholder is replaced, by both kinds of numbers. -/
theorem reachable_memberwise_mixed : mixed.Reachable ∧ mixed.Memberwise ∧
    mixed.members ⟨9⟩ = [.nil, .self, ⟨7⟩, ⟨8⟩] ∧ mixed.members ⟨10⟩ = [.int, .float] ∧
    (forReceiver ⟨9⟩ ⟨10⟩ mixed).2.members (forReceiver ⟨9⟩ ⟨10⟩ mixed).1 =
      [.nil, .int, .float, ⟨7⟩, ⟨8⟩] :=
  ⟨mixed_reachable, reachable_memberwise mixed_reachable, by decide +kernel⟩

end Multimethod.TypeTable
