import Multimethod.Proofs.Evolution.State

/-!
# Calls let states evolve

If visits let states evolve (`Visits`), so do calls: the entries of a resolution are for types that
are described, and so are the types they answer.
-/

namespace Multimethod

open Inference TypeTable

/-- The entries of a resolution are for types that are described. -/
theorem Registry.resolve_described {g : Registry} {t : TypeTable} {receiver : Option TypeId}
    {args : List TypeId} (H : t.WF) (D : g.Described t) (hr : ∀ a ∈ receiver, t.Has a)
    (ha : ∀ a ∈ args, t.Has a) (k : Name) (span : Span) :
    Settles t (g.resolve k receiver args span).run fun r u => ∀ es, r = .ok es →
      ∀ e ∈ es, (∀ a ∈ e.receiver, u.Has a) ∧ ∀ a ∈ e.args, u.Has a := by
  refine (resolve_goes H D hr ha k span).mono fun r u hu _ h es hes e he => ?_
  subst hes
  obtain ⟨P, hgoes⟩ := h u hu (le_refl u)
  have hgoes : g.Resolves u k (g.callParts u receiver args) es := hgoes
  obtain ⟨c, hc, hreceiver, hargs, -⟩ := hgoes.exists_of_mem_right he
  have hc := mem_callParts.1 hc
  rw [hreceiver, hargs]
  exact ⟨P.has_receiver hc, P.has_args hc⟩

namespace Inference

/-- Visits let states evolve, and answer types that are described. -/
def Visits (ctx : Context) (visit : SpecId → Infer TypeId) : Prop :=
  ∀ σ s, σ.Described ctx → Course (State.Evolves ctx none) σ (visit s) fun a σ' => σ'.types.Has a

end Inference

namespace Infer

variable {ctx : Context} {visit : SpecId → Infer TypeId} {σ : State}

/-- A new specialization is not under way, and no others are touched. -/
theorem specialize_course (D : σ.Described ctx) {key : SpecKey}
    (hr : ∀ a ∈ key.receiver, σ.types.Has a) (ha : ∀ a ∈ key.args, σ.types.Has a) :
    Course (State.Evolves ctx none) σ (specialize key) fun _ _ => True := by
  have old {s : SpecId} {i : Specialization} (hi : σ.specs.get? s = some i) :
      (σ.specs.demand key).2.2.get? s = some i := by
    rw [Specializations.get?_demand, if_neg, hi]
    rintro ⟨-, rfl⟩
    rw [Specializations.get?_size] at hi
    cases hi
  have new {s : SpecId} {j : Specialization} (hj : (σ.specs.demand key).2.2.get? s = some j) :
      j = { key } ∨ σ.specs.get? s = some j := by
    rw [Specializations.get?_demand] at hj
    split at hj
    · cases hj
      exact .inl rfl
    · exact .inr hj
  intro r σ' hx
  cases hx
  refine ⟨{ types := le_refl _, ivars := D.grows_refl.ivars, described := ?_, pass := rfl,
            specs := fun s i hi => ⟨i, old hi, rfl, .refl (D.returns s i hi)⟩
            later := .demand _ _, fresh := fun s j hs hj => ?_, stage := fun s i j hi hj => ?_
            waits := fun s i j _ hi hj _ => ?_ }, fun _ _ => trivial⟩
  · refine { D with receivers := fun s j hj => ?_, args := fun s j hj => ?_,
                    returns := fun s j hj => ?_ }
    · obtain rfl | hj := new hj
      · exact hr
      · exact D.receivers s j hj
    · obtain rfl | hj := new hj
      · exact ha
      · exact D.args s j hj
    · obtain rfl | hj := new hj
      · exact D.types.has_never
      · exact D.returns s j hj
  · obtain rfl | hj := new hj
    · rfl
    · cases hs.symm.trans hj
  · cases (old hi).symm.trans hj
    rfl
  · cases (old hi).symm.trans hj
    exact .refl i

section
variable (hv : Visits ctx visit)
include hv

theorem visitInitializers_course {object : TypeId} {args : List TypeId} (ms : List MethodId)
    (D : σ.Described ctx) (ho : σ.types.Has object) (ha : ∀ a ∈ args, σ.types.Has a)
    (last : Option SpecId) :
    Course (State.Evolves ctx none) σ (visitInitializers visit object args last ms)
      fun _ _ => True := by
  induction ms generalizing σ last with
  | nil => exact .pure (.refl D) trivial
  | cons m ms ih =>
    simp only [visitInitializers]
    have hr : ∀ a ∈ some object, σ.types.Has a := fun a h => by cases h; exact ho
    refine (specialize_course D hr ha).bind fun s σ₁ h₁ _ => ?_
    refine (hv σ₁ s h₁.described).bind fun _ σ₂ h₂ _ => ?_
    have hle := le_trans h₁.types h₂.types
    exact ih h₂.described (ho.mono hle) (fun a h => (ha a h).mono hle) (some s)

theorem inferCreation_course (D : σ.Described ctx) (c : ClassId) {args : List TypeId}
    (ha : ∀ a ∈ args, σ.types.Has a) (span : Span) :
    Course (State.Evolves ctx none) σ (inferCreation ctx visit c args span)
      fun r σ' => σ'.types.Has r.2 := by
  unfold inferCreation
  refine (Course.onTypes D (exact_settles D.types c)).bind fun object σ₁ h₁ ho => ?_
  obtain ⟨ho, -⟩ := ho
  have D₁ := h₁.described
  refine Course.get (f := fun s : State => _) (Course.get ?_)
  dsimp only
  split
  · exact .pure (.refl D₁) ho
  · have ha₁ := fun a h => (ha a h).mono h₁.types
    have hr : ∀ a ∈ some object, σ₁.types.Has a := fun a h => by cases h; exact ho
    refine (Course.resolving D₁ (Registry.resolve_described D₁.types D₁.registry hr ha₁ _ _)).bind
      fun es σ₂ h₂ _ => ?_
    refine (visitInitializers_course hv _ h₂.described (ho.mono h₂.types)
      (fun a h => (ha₁ a h).mono h₂.types) none).bind fun i σ₃ h₃ _ => ?_
    exact .pure (.refl h₃.described) ((ho.mono h₂.types).mono h₃.types)

theorem inferEntry_course (D : σ.Described ctx) (span : Span) {e : ResolutionEntry}
    (hr : ∀ a ∈ e.receiver, σ.types.Has a) (ha : ∀ a ∈ e.args, σ.types.Has a) :
    Course (State.Evolves ctx none) σ (inferEntry ctx visit span e)
      fun r σ' => σ'.types.Has r.2 := by
  unfold inferEntry
  cases e.target with
  | method m =>
    refine (specialize_course D hr ha).bind fun s σ₁ h₁ _ => ?_
    refine (hv σ₁ s h₁.described).bind fun a σ₂ h₂ h => ?_
    exact .pure (.refl h₂.described) h
  | allocate c =>
    refine (Course.onTypes D (exact_settles D.types c)).bind fun a σ₁ h₁ h => ?_
    exact .pure (.refl h₁.described) h.1
  | new c => exact inferCreation_course hv D c ha span

theorem inferEntries_course (span : Span) (es : Resolution) (D : σ.Described ctx)
    (hes : ∀ e ∈ es, (∀ a ∈ e.receiver, σ.types.Has a) ∧ ∀ a ∈ e.args, σ.types.Has a)
    {a : TypeId} (ha : σ.types.Has a) (table : DispatchTable) :
    Course (State.Evolves ctx none) σ (inferEntries ctx visit span a table es)
      fun r σ' => σ'.types.Has r.1 := by
  induction es generalizing σ a table with
  | nil => exact .pure (.refl D) ha
  | cons e es ih =>
    simp only [inferEntries]
    obtain ⟨hr, hargs⟩ := hes e (.head _)
    refine (inferEntry_course hv D span hr hargs).bind fun r σ₁ h₁ hb => ?_
    refine (Course.union h₁.described (ha.mono h₁.types) hb).bind fun c σ₂ h₂ hc => ?_
    have hle := le_trans h₁.types h₂.types
    refine ih h₂.described (fun e' he' => ?_) hc.left.2.1 _
    obtain ⟨hr', hargs'⟩ := hes e' (.tail _ he')
    exact ⟨fun a h => (hr' a h).mono hle, fun a h => (hargs' a h).mono hle⟩

theorem inferCall_course (D : σ.Described ctx) {receiver : Option TypeId} {self : TypeId}
    {args : List TypeId} (hr : ∀ a ∈ receiver, σ.types.Has a) (hself : σ.types.Has self)
    (ha : ∀ a ∈ args, σ.types.Has a) (method : Name) (span : Span) :
    Course (State.Evolves ctx none) σ (inferCall ctx visit receiver self method args span)
      fun r σ' => σ'.types.Has r.1 := by
  unfold inferCall
  refine Course.get (f := fun s : State => _) ?_
  cases receiver with
  | some a =>
    have hres := Registry.resolve_described D.types D.registry hr ha method span
    refine (Course.resolving D hres).bind fun es σ₁ h₁ hes => ?_
    exact inferEntries_course hv span es h₁.described hes h₁.described.types.has_never .empty
  | none =>
    have hs : ∀ a ∈ (some self).filter (Registry.goesToSelf
        ⟨ctx.names, ctx.core, σ.hierarchy, ctx.methods⟩ σ.types method), σ.types.Has a :=
      fun a h => by
        cases (Option.filter_eq_some_iff.1 h).1
        exact hself
    have hres := Registry.resolveSend_of_resolve D.types hself
      (Registry.resolve_described D.types D.registry hs ha method span)
    refine (Course.resolving D hres).bind fun es σ₁ h₁ hes => ?_
    exact inferEntries_course hv span es h₁.described hes h₁.described.types.has_never .empty

end

end Infer

end Multimethod
