import Multimethod.Proofs.Inference.Call
import Multimethod.Proofs.Order.State

/-!
# Calls of two inferences

A call that two inferences type from states that have found the same leads both to the same
specializations, and has the same dispatch table (`Mirror.inferCall_agree`).
-/

namespace Multimethod.Mirror

open Inference TypeTable Ground

variable {M : Mirror} {visit visit' : SpecId → Infer TypeId} {σ τ : State}

variable (M) in
/-- Visits of a specialization agree. -/
def VisitsAgree (visit visit' : SpecId → Infer TypeId) : Prop :=
  ∀ s {σ τ : State}, M.Pair σ τ → M.states.Agree σ τ (visit s) (visit' s) M.ground.Same

variable (hv : M.VisitsAgree visit visit')
include hv

theorem visitInitializers_agree {object : TypeId} (ho : M.ground.Atom object) {args : List TypeId}
    (ha : ∀ a ∈ args, M.ground.Atom a) {ms ms' : List MethodId}
    (hm : List.Forall₂ (fun m m' => ∃ n, Counterparts M.ctx.methods M.methods n m m') ms ms')
    (last : Option SpecId) : ∀ {σ τ : State}, M.Pair σ τ →
    M.states.Agree σ τ (Infer.visitInitializers visit object args last ms)
      (Infer.visitInitializers visit' object args last ms') fun _ _ s s' => s' = s := by
  induction hm generalizing last with
  | nil => exact fun h => .pure h rfl
  | @cons m m' ms ms' hm _ ih =>
    intro σ τ h
    have hk : M.ground.SameKey M.ctx.methods M.methods ⟨m, some object, args⟩
        ⟨m', some object, args⟩ :=
      ⟨hm, rfl, rfl, fun a h => by cases h; exact ho, ha⟩
    simp only [Infer.visitInitializers]
    refine (specialize_agree h hk).bind fun σ₁ τ₁ s s' h₁ hs => ?_
    obtain rfl : s' = s := hs
    exact (hv s' h₁.pair).bind fun σ₂ τ₂ _ _ h₂ _ => ih (some s') h₂.pair

theorem inferCreation_agree (h : M.Pair σ τ) {c : ClassId} (hc : c.index < M.ground.classes)
    {args : List TypeId} (ha : ∀ a ∈ args, M.ground.Atom a) (span : Span) :
    M.states.Agree σ τ (Infer.inferCreation M.ctx visit c args span)
      (Infer.inferCreation M.other visit' c args span) fun t u p q =>
        q.1 = p.1 ∧ M.ground.Same t u p.2 q.2 := by
  unfold Infer.inferCreation
  refine (onTypes_agree h (exact_alike h.twins hc)).bind fun σ₁ τ₁ object object' h₁ hobject => ?_
  obtain ⟨rfl, ho, -⟩ := hobject
  have hobject : M.ground.Same σ₁.types τ₁.types object' object' := .atom h₁.pair.twins ho
  refine .get (.get ?_)
  have hunderstands :
      M.ctx.methods.understands σ₁.hierarchy σ₁.types M.ctx.core.initializer object' =
        M.other.methods.understands τ₁.hierarchy τ₁.types M.other.core.initializer object' := by
    rw [← MethodTable.understands_tree M.ctx.methods, h₁.pair.left_tree,
      ← MethodTable.understands_tree M.other.methods τ₁.hierarchy, h₁.pair.right_tree]
    exact h₁.pair.paired.understands h₁.pair.twins hobject
  simp only [hunderstands]
  refine .ite Iff.rfl (fun _ => .pure h₁.pair ⟨rfl, hobject⟩) fun _ => ?_
  have hres := resolve_alike (g := (Registry.mk M.ctx.names M.ctx.core σ₁.hierarchy
    M.ctx.methods).tree) h₁.pair.paired h₁.pair.twins (same_members h₁.pair.twins ha)
    M.ctx.core.initializer span (.some hobject)
  rw [← h₁.pair.registry_tree, Registry.resolve_tree, Registry.resolve_tree] at hres
  refine (resolving_agree h₁.pair hres).bind fun σ₂ τ₂ es es' h₂ hes => ?_
  refine (visitInitializers_agree hv ho ha (methods_alike hes) none h₂.pair).bind
    fun σ₃ τ₃ s s' h₃ hs => ?_
  obtain rfl : s' = s := hs
  exact .pure h₃.pair ⟨rfl, .atom h₃.pair.twins ho⟩

theorem inferEntry_agree (h : M.Pair σ τ) (span : Span) {e e' : ResolutionEntry}
    (he : M.ground.SameEntry M.ctx.methods M.methods e e') :
    M.states.Agree σ τ (Infer.inferEntry M.ctx visit span e)
      (Infer.inferEntry M.other visit' span e') fun t u p q =>
        q.1 = p.1 ∧ M.ground.Same t u p.2 q.2 := by
  obtain ⟨receiver, args, target⟩ := e
  obtain ⟨receiver', args', target'⟩ := e'
  obtain ⟨rfl : receiver' = receiver, rfl : args' = args, hr, ha, htarget⟩ := he
  unfold Infer.inferEntry
  match target, target' with
  | .method m, .method m' =>
    have hk : M.ground.SameKey M.ctx.methods M.methods ⟨m, receiver', args'⟩
        ⟨m', receiver', args'⟩ := ⟨htarget, rfl, rfl, hr, ha⟩
    refine (specialize_agree h hk).bind fun σ₁ τ₁ s s' h₁ hs => ?_
    obtain rfl : s' = s := hs
    exact (hv s' h₁.pair).bind fun σ₂ τ₂ a b h₂ hab => .pure h₂.pair ⟨rfl, hab⟩
  | .allocate c, .allocate c' =>
    obtain ⟨rfl, hc⟩ := htarget
    refine (onTypes_agree h (exact_alike h.twins hc)).bind fun σ₁ τ₁ a b h₁ hab => ?_
    obtain ⟨rfl, hatom, -⟩ := hab
    exact .pure h₁.pair ⟨rfl, .atom h₁.pair.twins hatom⟩
  | .new c, .new c' =>
    obtain ⟨rfl, hc⟩ := htarget
    exact inferCreation_agree hv h hc ha span

theorem inferEntries_agree (span : Span) {es es' : Resolution}
    (hes : List.Forall₂ (M.ground.SameEntry M.ctx.methods M.methods) es es') :
    ∀ {σ τ : State} {a b : TypeId} (table : DispatchTable), M.Pair σ τ →
    M.ground.Same σ.types τ.types a b →
    M.states.Agree σ τ (Infer.inferEntries M.ctx visit span a table es)
      (Infer.inferEntries M.other visit' span b table es') fun t u p q =>
        M.ground.Same t u p.1 q.1 ∧ q.2 = p.2 := by
  induction hes with
  | nil => exact fun table h hab => .pure h ⟨hab, rfl⟩
  | @cons e e' es es' he _ ih =>
    intro σ τ a b table h hab
    simp only [Infer.inferEntries]
    refine (inferEntry_agree hv h span he).bind fun σ₁ τ₁ p q h₁ hpq => ?_
    obtain ⟨target, c⟩ := p
    obtain ⟨target', d⟩ := q
    obtain ⟨rfl : target' = target, hcd⟩ := hpq
    refine (union_agree h₁.pair (hab.mono h₁.left h₁.right) hcd).bind fun σ₂ τ₂ a₂ b₂ h₂ hab₂ => ?_
    rw [he.receiver, he.args]
    exact ih _ h₂.pair hab₂

/-- A call has the same dispatch table, and corresponding types or the same error. -/
theorem inferCall_agree (h : M.Pair σ τ) {receiver receiver' : Option TypeId}
    (hr : Option.Rel (M.ground.Same σ.types τ.types) receiver receiver') {self self' : TypeId}
    (hself : M.ground.Same σ.types τ.types self self') (method : Name) {args args' : List TypeId}
    (ha : List.Forall₂ (M.ground.Same σ.types τ.types) args args') (span : Span) :
    M.states.Agree σ τ (Infer.inferCall M.ctx visit receiver self method args span)
      (Infer.inferCall M.other visit' receiver' self' method args' span) fun t u p q =>
        M.ground.Same t u p.1 q.1 ∧ q.2 = p.2 := by
  unfold Infer.inferCall
  refine .get ?_
  set g := Registry.mk M.ctx.names M.ctx.core σ.hierarchy M.ctx.methods with hg
  set g' := Registry.mk M.other.names M.other.core τ.hierarchy M.other.methods with hg'
  have htree : g'.tree = { g.tree with methods := M.methods } := h.registry_tree
  have hresolved : M.ground.Alike σ.types τ.types
      (World.resolveCall g receiver self method args span).run
      (World.resolveCall g' receiver' self' method args' span).run
      fun _ _ => Outcomes (List.Forall₂ (M.ground.SameEntry M.ctx.methods M.methods)) := by
    cases hr with
    | some hr =>
      dsimp only [World.resolveCall]
      rw [← Registry.resolve_tree g, ← Registry.resolve_tree g', htree]
      exact resolve_alike (g := g.tree) h.paired h.twins ha method span (.some hr)
    | none =>
      dsimp only [World.resolveCall]
      rw [← Registry.resolveSend_tree g, ← Registry.resolveSend_tree g', htree]
      exact resolveSend_alike (g := g.tree) h.paired h.twins ha method span (.some hself)
  exact (resolving_agree h hresolved).bind fun σ₁ τ₁ es es' h₁ hes =>
    inferEntries_agree hv span hes .empty h₁.pair (.never h₁.pair.twins)

end Multimethod.Mirror
