import Multimethod.Proofs.Resolution.Distribution
import Multimethod.Proofs.Resolution.Specificity

/-!
# Narrower calls are resolved too

A call that is resolved is resolved for narrower arguments too, and, where no restriction names the
class of the receiver, for an object of a class below (`Registry.resolve_narrower`). The parts of a
narrower type are below parts of the wider one; as the two calls are split in different tables, parts
are compared by their shapes.
-/

theorem List.Forall₂.exists_getElem? {α β : Type} {R : α → β → Prop} {as : List α} {bs : List β}
    (h : List.Forall₂ R as bs) {i : Nat} {a : α} (hi : as[i]? = some a) :
    ∃ b, bs[i]? = some b ∧ R a b := by
  induction h generalizing i with
  | nil => simp at hi
  | cons hr _ ih =>
    cases i with
    | zero =>
      cases hi
      exact ⟨_, rfl, hr⟩
    | succ i => exact ih hi

namespace Multimethod

open Relation TypeTable

variable {t u w : TypeTable}

/-! ## Shapes of parts -/

namespace Hierarchy

variable {h : Hierarchy} {s s' s'' : Shape} {m n : TypeId}

/-- A shape is another or below it. -/
def ShapeLE (h : Hierarchy) (s s' : Shape) : Prop := s = s' ∨ h.ShapeBelow s s'

namespace ShapeLE

theorem trans (R : h.Rooted) (hs : h.ShapeLE s s') (hs' : h.ShapeLE s' s'') : h.ShapeLE s s'' := by
  rcases hs with rfl | hs
  · exact hs'
  · rcases hs' with rfl | hs'
    · exact .inr hs
    · exact .inr (hs.trans R hs')

theorem of_memberBelow (R : h.Rooted) (hmn : h.memberBelow t m n = true) :
    h.ShapeLE (t.shape m) (t.shape n) := (R.memberBelow_iff.1 hmn).imp_left (congrArg _)

theorem memberBelow (R : h.Rooted) (hm : t.Has m) (hn : t.Has n)
    (hmn : h.ShapeLE (t.shape m) (t.shape n)) : h.memberBelow t m n = true :=
  R.memberBelow_iff.2 (hmn.imp_left fun h => hm.shape_inj hn h)

/-- What is below a shape is below one of its parts. -/
theorem exists_part (hsize : 0 < h.size) (hs : h.ShapeLE s s') :
    ∃ p, h.PartOf s' p ∧ h.ShapeLE s p := by
  by_cases hs' : ∃ c, s' = .below c
  · obtain ⟨c, rfl⟩ := hs'
    refine ⟨.exact c, .below (mem_descendants_self hsize c), .inr ?_⟩
    rcases hs with rfl | hs
    · exact .instances rfl rfl .refl
    · cases hs with
      | instances hs hs' hcd => exact .instances hs hs' hcd
      | object hs' => exact .object hs'
  · exact ⟨s', .same fun c hc => hs' ⟨c, hc⟩, hs⟩

end ShapeLE

/-- The parts of a shape are below it. -/
theorem PartOf.shapeLE (F : h.Forest) (hp : h.PartOf s s') : h.ShapeLE s' s := by
  cases hp with
  | same => exact .inl rfl
  | below hd => exact .inr (.instances rfl rfl (F.above_of_mem_descendants hd))

end Hierarchy

namespace Registry

variable {g : Registry} {a a' b b' : TypeId} {l l' : List TypeId} {r r' : Option TypeId}
  {args args' c c' : List TypeId} {m : MethodId} {i : Nat} {k : Name}

/-- Each part of a narrower type is below a part of the wider one. -/
theorem Parts.exists_le (R : g.hierarchy.Rooted) (P : g.Parts t a l u) (P' : g.Parts t a' l' w)
    (hsub : g.isSubtype t a' a = true) (hb' : b' ∈ l') :
    ∃ b ∈ l, g.hierarchy.ShapeLE (w.shape b') (u.shape b) := by
  obtain ⟨m', hm', hp'⟩ := (P'.shapes _).1 ⟨b', hb', rfl⟩
  obtain ⟨m, hm, hbelow⟩ := g.hierarchy.isSubtype_iff.1 hsub m' hm'
  have hle := (hp'.shapeLE R.toForest).trans R (.of_memberBelow R hbelow)
  obtain ⟨p, hp, hle⟩ := hle.exists_part R.nonempty
  obtain ⟨b, hb, rfl⟩ := (P.shapes p).2 ⟨m, hm, hp⟩
  exact ⟨b, hb, hle⟩

/-- A member `b'` of `w` is below a member `b` of `u`. -/
structure Narrower (g : Registry) (u w : TypeTable) (b' b : TypeId) : Prop where
  narrow : (w.shape b').IsMember
  wide : (u.shape b).IsMember
  le : g.hierarchy.ShapeLE (w.shape b') (u.shape b)

theorem has_of_narrower (hcc : List.Forall₂ (g.Narrower u w) c' c) :
    (∀ b ∈ c, u.Has b) ∧ ∀ b ∈ c', w.Has b := by
  constructor
  · intro b hb
    obtain ⟨b', -, hbb⟩ := hcc.exists_of_mem_right hb
    exact has_of_isMember hbb.wide
  · intro b hb
    obtain ⟨b', -, hbb⟩ := hcc.exists_of_mem_left hb
    exact has_of_isMember hbb.narrow

/-- Each combination of parts of narrower arguments is below one of parts of the wider ones. -/
theorem exists_wider (R : g.hierarchy.Rooted) (H : t.WF)
    (hargs : List.Forall₂ (fun a' a => g.isSubtype t a' a = true) args' args)
    (ha : ∀ a ∈ args, t.Has a ∧ g.Parts t a (g.parts u a) u)
    (ha' : ∀ a ∈ args', t.Has a ∧ g.Parts t a (g.parts w a) w)
    (hc' : List.Forall₂ (fun b a => b ∈ g.parts w a) c' args') :
    ∃ c, List.Forall₂ (fun b a => b ∈ g.parts u a) c args ∧
      List.Forall₂ (g.Narrower u w) c' c := by
  induction hargs generalizing c' with
  | nil =>
    cases hc'
    exact ⟨[], .nil, .nil⟩
  | @cons a' a as' as hsub _ ih =>
    obtain ⟨⟨hhas, P⟩, ha⟩ := List.forall_mem_cons.1 ha
    obtain ⟨⟨hhas', P'⟩, ha'⟩ := List.forall_mem_cons.1 ha'
    cases hc' with
    | cons hb' hc' =>
      obtain ⟨b, hb, hle⟩ := P.exists_le R P' hsub hb'
      obtain ⟨c, hc, hcc⟩ := ih ha ha' hc'
      exact ⟨b :: c, .cons hb hc,
        .cons ⟨P'.isMember H hhas' hb', P.isMember H hhas hb, hle⟩ hcc⟩

/-! ## Targets of narrower combinations -/

/-- A combination has a target if a candidate takes it, or if there is no candidate and it makes an
object. -/
theorem hasTarget_iff (H : t.WF) (D : g.Described t) (hr : ∀ b ∈ r, t.Has b)
    (hc : ∀ b ∈ c, t.Has b) : g.HasTarget t k (r, c) ↔
      (∃ m ∈ g.fitting t k r c.length, g.Takes t r c m) ∨
        g.methods.candidates g.hierarchy t k r = [] ∧ (g.builtin t k r c).isSome := by
  obtain ⟨best, hbest, heq⟩ := (pick_spec H D hr hc k).post
  have hsome := hbest.isSome_iff
  rw [HasTarget, heq, ← hsome.trans (or_iff_right Bool.false_ne_true)]
  cases best with
  | some m => exact iff_of_true ⟨_, rfl⟩ (.inl rfl)
  | none =>
    simp only [outcome, List.isEmpty_iff, Option.isSome_none, Bool.false_eq_true, false_or]
    by_cases hcs : g.methods.candidates g.hierarchy t k r = []
    · rw [if_pos hcs]
      cases g.builtin t k r c <;> simp [hcs]
    · simp [hcs]

theorem mem_candidates_name (L : g.methods.Listed)
    (hm : m ∈ g.methods.candidates g.hierarchy t k r) :
    ∃ md, g.methods.get? m = some md ∧ md.definition.name = k := by
  have mem {o : MethodOwner} (hm : m ∈ g.methods.overloads k o) : m ∈ g.methods.idsOf k := by
    rw [L k o] at hm
    exact List.mem_of_mem_filter hm
  refine MethodTable.mem_idsOf.1 ?_
  cases r with
  | none => exact mem hm
  | some a =>
    obtain ⟨o, -, hm⟩ := List.mem_flatMap.1 hm
    exact mem hm

section
variable (R : g.hierarchy.Rooted) (H : t.WF) (D : g.Described t) (hle : t ≤ u) (hle' : t ≤ w)
include R H D hle hle'

/-- What is below a member that is within a restriction is within it too, if what the restriction
says of the receiver stays the same. -/
theorem Within.of_narrower (hself : ∀ md a, g.methods.get? m = some md → md.declared i = some a →
      .self ∈ t.members a → ∀ n ∈ u.members (r.getD .object),
        ∃ n' ∈ w.members (r'.getD .object), w.Has n' ∧ w.shape n' = u.shape n)
    (hbb : g.Narrower u w b' b) (hwithin : g.Within u r m i b) : g.Within w r' m i b' := by
  intro ns' hns'
  obtain ⟨a, ha, rfl⟩ := Option.map_eq_some_iff.1 hns'
  obtain ⟨md, hmd, hda⟩ := Option.bind_eq_some_iff.1 ha
  have hat := D m md i a hmd hda
  obtain ⟨n, hn, hbn⟩ := hwithin _ (Option.map_eq_some_iff.2 ⟨a, ha, rfl⟩) b
    (mem_members_self hbb.wide)
  have hbn := hbb.le.trans R (.of_memberBelow R hbn)
  -- The member of the restriction that `n` is in the other table.
  obtain ⟨n', hn', hhas, hshape⟩ : ∃ n' ∈ Handle.sorted ((w.members a).flatMap fun n =>
      if n = TypeId.self then w.members (r'.getD .object) else [n]),
      w.Has n' ∧ w.shape n' = u.shape n := by
    simp only [Handle.mem_sorted, List.mem_flatMap, hat.members_eq hle, hat.members_eq hle'] at hn ⊢
    obtain ⟨k, hk, hn⟩ := hn
    split at hn
    · rename_i hks
      obtain ⟨n', hn', h⟩ := hself md a hmd hda (hks ▸ hk) n hn
      exact ⟨n', ⟨k, hk, by rwa [if_pos hks]⟩, h⟩
    · rename_i hks
      obtain rfl := List.mem_singleton.1 hn
      have hkt := (H.isMember_of_mem hat hk).1
      exact ⟨n, ⟨n, hk, by rw [if_neg hks]; exact .head _⟩, hkt.mono hle',
        (hkt.shape_eq hle').trans (hkt.shape_eq hle).symm⟩
  intro m hm
  rw [members_of_isMember hbb.narrow, List.mem_singleton] at hm
  subst hm
  exact ⟨n', hn',
    Hierarchy.ShapeLE.memberBelow R (has_of_isMember hbb.narrow) hhas (hshape ▸ hbn)⟩

/-- A candidate that takes a combination takes a narrower one, of a receiver with its candidates. -/
theorem exists_takes (hcandidates : ∀ m ∈ g.methods.candidates g.hierarchy u k r,
      m ∈ g.methods.candidates g.hierarchy w k r')
    (hself : ∀ m ∈ g.methods.candidates g.hierarchy u k r, ∀ md i a,
      g.methods.get? m = some md → md.declared i = some a → .self ∈ t.members a →
        ∀ n ∈ u.members (r.getD .object),
          ∃ n' ∈ w.members (r'.getD .object), w.Has n' ∧ w.shape n' = u.shape n)
    (hcc : List.Forall₂ (g.Narrower u w) c' c)
    (h : ∃ m ∈ g.fitting u k r c.length, g.Takes u r c m) :
    ∃ m ∈ g.fitting w k r' c'.length, g.Takes w r' c' m := by
  obtain ⟨m, hm, htakes⟩ := h
  obtain ⟨hm, harity⟩ := mem_fitting.1 hm
  refine ⟨m, mem_fitting.2 ⟨hcandidates m hm, hcc.length_eq ▸ harity⟩, fun i b' hi => ?_⟩
  obtain ⟨b, hb, hbb⟩ := hcc.exists_getElem? hi
  exact .of_narrower R H D hle hle' (fun md => hself m hm md i) hbb (htakes i b hb)

end

section
variable (S : g.Sound t) (hu : u.WF) (hw : w.WF) (hle : t ≤ u) (hle' : t ≤ w)
  (hcc : List.Forall₂ (g.Narrower u w) c' c)
include S hu hw hle hle' hcc

/-- A receiver of the same shape. -/
theorem HasTarget.of_narrower
    (hrr : Option.Rel (fun b b' => (u.shape b).IsMember ∧ w.shape b' = u.shape b) r r')
    (h : g.HasTarget u k (r, c)) : g.HasTarget w k (r', c') := by
  have hr : ∀ b ∈ r, u.Has b := by
    cases hrr with
    | none => nofun
    | some hb => rintro _ ⟨⟩; exact has_of_isMember hb.1
  have hr' : ∀ b ∈ r', w.Has b := by
    cases hrr with
    | none => nofun
    | some hb => rintro _ ⟨⟩; exact has_of_isMember (hb.2 ▸ hb.1)
  obtain ⟨hc, hc'⟩ := has_of_narrower hcc
  have hnil : c' = [] ↔ c = [] := by
    rw [← List.length_eq_zero_iff, ← List.length_eq_zero_iff, hcc.length_eq]
  have hcandidates : g.methods.candidates g.hierarchy w k r' =
      g.methods.candidates g.hierarchy u k r := by
    cases hrr with
    | none => rfl
    | some hb => simp only [MethodTable.candidates, hb.2]
  have hbuiltin : g.builtin w k r' c' = g.builtin u k r c := by
    cases hrr with
    | none => rfl
    | some hb => simp only [builtin, Option.map_some, hb.2, hnil]
  have hself : ∀ n ∈ u.members (r.getD .object),
      ∃ n' ∈ w.members (r'.getD .object), w.Has n' ∧ w.shape n' = u.shape n := by
    have object {v : TypeTable} (hv : v.WF) : (v.shape .object).IsMember := by
      rw [hv.shape_object]
      trivial
    intro n hn
    cases hrr with
    | none =>
      rw [Option.getD_none, members_of_isMember (object hu), List.mem_singleton] at hn
      subst hn
      exact ⟨.object, mem_members_self (object hw), hw.has_object,
        hw.shape_object.trans hu.shape_object.symm⟩
    | @some b b' hb =>
      rw [Option.getD_some, members_of_isMember hb.1, List.mem_singleton] at hn
      subst hn
      have hmember : (w.shape b').IsMember := hb.2 ▸ hb.1
      exact ⟨b', mem_members_self hmember, has_of_isMember hmember, hb.2⟩
  rw [hasTarget_iff hu (S.restrictions.mono hle) hr hc] at h
  rw [hasTarget_iff hw (S.restrictions.mono hle') hr' hc', hcandidates, hbuiltin]
  exact h.imp_left (exists_takes S.rooted S.types S.restrictions hle hle'
    (fun m hm => by rwa [hcandidates]) (fun m _ md i a _ _ _ => hself) hcc)

/-- An object of a class below, if no restriction names the class of the receiver. -/
theorem HasTarget.of_below {sup sub : ClassId} (hb : u.shape b = .exact sup)
    (hb' : w.shape b' = .exact sub) (hbelow : ReflTransGen g.hierarchy.Up sub sup)
    (hself : ∀ m md i a, g.methods.get? m = some md → md.definition.name = k →
      md.declared i = some a → .self ∉ t.members a)
    (h : g.HasTarget u k (some b, c)) : g.HasTarget w k (some b', c') := by
  have hr : ∀ d ∈ some b, u.Has d := by
    rintro _ ⟨⟩
    exact has_of_isMember (hb ▸ trivial)
  have hr' : ∀ d ∈ some b', w.Has d := by
    rintro _ ⟨⟩
    exact has_of_isMember (hb' ▸ trivial)
  obtain ⟨hc, hc'⟩ := has_of_narrower hcc
  have hbuiltin : g.builtin u k (some b) c = none := by
    simp only [builtin, Option.map_some, hb]
  rw [hasTarget_iff hu (S.restrictions.mono hle) hr hc, hbuiltin] at h
  rw [hasTarget_iff hw (S.restrictions.mono hle') hr' hc']
  obtain h | ⟨-, ⟨⟩⟩ := h
  refine .inl (exists_takes S.rooted S.types S.restrictions hle hle' (fun m hm => ?_)
    (fun m hm md i a hmd ha ham => ?_) hcc h)
  · simp only [MethodTable.candidates, hb, hb', MethodTable.lookupOrder, List.mem_flatMap,
      List.mem_map] at hm ⊢
    obtain ⟨_, ⟨d, hd, rfl⟩, hm⟩ := hm
    have hd := (S.rooted.mem_ancestors S.rooted.nonempty).1 hd
    exact ⟨_, ⟨d, (S.rooted.mem_ancestors S.rooted.nonempty).2 (hbelow.trans hd), rfl⟩, hm⟩
  · obtain ⟨md', hmd', hname⟩ := mem_candidates_name S.listed hm
    cases hmd.symm.trans hmd'
    exact absurd ham (hself m md i a hmd hname ha)

end

/-! ## Narrower calls -/

variable {receiver : Option TypeId}

theorem parts_of_exact {sub : ClassId} (P : g.Parts t a l u) (hs : t.shape a = .exact sub)
    (hb : b ∈ l) : u.shape b = .exact sub := by
  obtain ⟨m, hm, hp⟩ := (P.shapes _).1 ⟨b, hb, rfl⟩
  rw [members_of_isMember (hs ▸ trivial), List.mem_singleton] at hm
  subst hm
  rw [hs] at hp
  generalize u.shape b = s at hp
  cases hp
  rfl

/-- A call is resolved if another one is and each combination of its parts has a target when some
combination of the parts of the other one has. -/
theorem resolve_of_targets (hg : g.Reachable t) (span : Span) {receiver receiver' : Option TypeId}
    (hr : ∀ a ∈ receiver, t.Has a) (hr' : ∀ a ∈ receiver', t.Has a) (ha : ∀ a ∈ args, t.Has a)
    (ha' : ∀ a ∈ args', t.Has a)
    (hargs : List.Forall₂ (fun a' a => g.isSubtype t a' a = true) args' args)
    (hreceiver : ∀ u w : TypeTable, u.WF → w.WF → t ≤ u → t ≤ w →
      (∀ a ∈ receiver, g.Parts t a (g.parts u a) u) →
      (∀ a ∈ receiver', g.Parts t a (g.parts w a) w) →
      ∀ r' ∈ g.receiverParts w receiver', ∃ r ∈ g.receiverParts u receiver, ∀ c' c,
        List.Forall₂ (g.Narrower u w) c' c → g.HasTarget u k (r, c) → g.HasTarget w k (r', c'))
    (hok : ∃ es, ((g.resolve k receiver args span).run t).1 = .ok es) :
    ∃ es, ((g.resolve k receiver' args' span).run t).1 = .ok es := by
  have S := hg.sound
  have hs := resolve_goes S.types S.restrictions hr ha k span
  have hs' := resolve_goes S.types S.restrictions hr' ha' k span
  have D := S.restrictions
  obtain ⟨P, hgoes⟩ := hs.post _ hs.wf (le_refl _)
  obtain ⟨P', hgoes'⟩ := hs'.post _ hs'.wf (le_refl _)
  have wide := hgoes.distributes S.types S.rooted.nonempty hr ha hs.wf (D.mono hs.le) P
  have narrow := hgoes'.distributes S.types S.rooted.nonempty hr' ha' hs'.wf (D.mono hs'.le) P'
  refine narrow.succeeds.2 fun (r', c') ⟨hpart, hc'⟩ => ?_
  obtain ⟨r, hr, htarget⟩ := hreceiver _ _ hs.wf hs'.wf hs.le hs'.le wide.parts.ofReceiver
    narrow.parts.ofReceiver r' hpart
  obtain ⟨c, hc, hcc⟩ := exists_wider S.rooted S.types hargs
    (fun a h => ⟨ha a h, wide.parts.ofArgs a h⟩) (fun a h => ⟨ha' a h, narrow.parts.ofArgs a h⟩) hc'
  exact htarget c' c hcc (wide.succeeds.1 hok (r, c) ⟨hr, hc⟩)

/-- A call that is resolved is resolved for narrower arguments, and, if no method of its name has a
restriction with `self`, for an object of a class below. -/
theorem resolve_narrower (hg : g.Reachable t) (k : Name) (span : Span) (ha : ∀ a ∈ args, t.Has a) :
    (∀ receiver args', (∀ a ∈ receiver, t.Has a) → (∀ a ∈ args', t.Has a) →
      List.Forall₂ (fun a' a => g.isSubtype t a' a = true) args' args →
      (∃ es, ((g.resolve k receiver args span).run t).1 = .ok es) →
      ∃ es, ((g.resolve k receiver args' span).run t).1 = .ok es) ∧
    ∀ a b sup sub, t.shape a = .exact sup → t.shape b = .exact sub →
      g.hierarchy.isBelow sub sup = true →
      (∀ m md i r, g.methods.get? m = some md → md.definition.name = k → md.declared i = some r →
        .self ∉ t.members r) →
      (∃ es, ((g.resolve k (some a) args span).run t).1 = .ok es) →
      ∃ es, ((g.resolve k (some b) args span).run t).1 = .ok es := by
  have S := hg.sound
  constructor
  · intro receiver args' hr ha' hargs
    refine resolve_of_targets hg span hr hr ha ha' hargs
      fun u w hu hw hle hle' P P' r' hr' => ?_
    cases receiver with
    | none =>
      obtain rfl := List.mem_singleton.1 hr'
      exact ⟨none, .head _, fun c' c hcc => .of_narrower S hu hw hle hle' hcc .none⟩
    | some a =>
      obtain ⟨b', hb', rfl⟩ := List.mem_map.1 hr'
      obtain ⟨b, hb, hshape⟩ := ((P a rfl).shapes _).2 (((P' a rfl).shapes _).1 ⟨b', hb', rfl⟩)
      have hmember := (P a rfl).isMember S.types (hr a rfl) hb
      exact ⟨some b, List.mem_map.2 ⟨b, hb, rfl⟩,
        fun c' c hcc => .of_narrower S hu hw hle hle' hcc (.some ⟨hmember, hshape.symm⟩)⟩
  · intro a b sup sub hsup hsub hbelow hself
    have has {a : TypeId} {c : ClassId} (hs : t.shape a = .exact c) : ∀ d ∈ some a, t.Has d := by
      rintro _ ⟨⟩
      exact has_of_isMember (hs ▸ trivial)
    refine resolve_of_targets hg span (has hsup) (has hsub) ha ha
      (List.forall₂_same.2 fun a _ => g.hierarchy.isSubtype_refl a)
      fun u w hu hw hle hle' P P' r' hr' => ?_
    obtain ⟨b', hb', rfl⟩ := List.mem_map.1 hr'
    obtain ⟨p, hp⟩ := Hierarchy.PartOf.exists_part S.rooted.nonempty (t.shape a)
    obtain ⟨a', ha', -⟩ := ((P a rfl).shapes p).2
      ⟨a, mem_members_self (hsup ▸ trivial), hp⟩
    exact ⟨some a', List.mem_map.2 ⟨a', ha', rfl⟩, fun c' c hcc =>
      .of_below S hu hw hle hle' hcc (parts_of_exact (P a rfl) hsup ha')
        (parts_of_exact (P' b rfl) hsub hb') (S.rooted.isBelow_iff.1 hbelow) hself⟩

/-- A method on any object. -/
def onObject : Registry × TypeTable := family [(some (.instances ⟨9⟩), [.named ⟨4⟩])]

theorem onObject_not_self (m : MethodId) (md : Method) (i : Nat) (r : TypeId)
    (hm : onObject.1.methods.get? m = some md) (hr : md.declared i = some r) :
    .self ∉ onObject.2.members r := by
  have hall : ∀ md ∈ onObject.1.methods.methods.toList, ∀ r ∈ md.restrictions, ∀ a ∈ r,
      TypeId.self ∉ onObject.2.members a := by decide +kernel
  obtain ⟨o, ho, rfl⟩ : ∃ o, md.restrictions[i]? = some o ∧ o = some r := by
    simpa [Method.declared, Option.join_eq_some_iff] using hr
  exact hall md (Array.mem_def.1 (Array.mem_of_getElem? hm)) _ (List.mem_of_getElem? ho) r rfl

/-- It is called with a number, and on an object of a class below. -/
theorem resolve_narrower_number :
    let g := onObject.1
    let t := onObject.2
    g.Reachable t ∧ g.isSubtype t .int .object = true ∧ g.hierarchy.isBelow ⟨6⟩ ⟨5⟩ = true ∧
      (∃ es, ((g.resolve ⟨11⟩ (some ⟨12⟩) [.object] .dummy).run t).1 = .ok es) ∧
      (∃ es, ((g.resolve ⟨11⟩ (some ⟨12⟩) [.int] .dummy).run t).1 = .ok es) ∧
      ∃ es, ((g.resolve ⟨11⟩ (some ⟨14⟩) [.object] .dummy).run t).1 = .ok es :=
  have hok : ∃ es, ((onObject.1.resolve ⟨11⟩ (some ⟨12⟩) [.object] .dummy).run onObject.2).1 =
    .ok es := ⟨[⟨some ⟨12⟩, [.object], .method ⟨0⟩⟩], by decide +kernel⟩
  have hsub : onObject.1.isSubtype onObject.2 .int .object = true := by decide +kernel
  have hbelow : onObject.1.hierarchy.isBelow ⟨6⟩ ⟨5⟩ = true := by decide +kernel
  have ha : ∀ a ∈ [TypeId.object], onObject.2.Has a := by decide +kernel
  have hnarrower := resolve_narrower (family_reachable _) ⟨11⟩ .dummy ha
  ⟨family_reachable _, hsub, hbelow, hok,
    hnarrower.1 (some ⟨12⟩) [.int] (by decide +kernel) (by decide +kernel) (.cons hsub .nil) hok,
    hnarrower.2 ⟨12⟩ ⟨14⟩ ⟨5⟩ ⟨6⟩ (by decide +kernel) (by decide +kernel) hbelow
      (fun m md i r hm _ hr => onObject_not_self m md i r hm hr) hok⟩

end Registry

end Multimethod
