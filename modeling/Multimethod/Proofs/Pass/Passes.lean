import Multimethod.Proofs.Pass.Visit

/-!
# Passes before the last one

Each pass ends in a state that grows into the last one, so what the last pass makes of the top level
bounds what the earlier ones made of it. The top level is gone through whether or not its statements
have values, and what follows one without a value may lack the locals that it should have bound. If
that does not happen (`Inference.proceed`), and the last pass has no errors, then all that an earlier
pass has reported is that a limit was reached (`World.runPasses_diverges`).
-/

namespace Multimethod

open Inference TypeTable InferIn

namespace Inference

/-- Whether a computation has given a value. -/
def hasValue : Except TypeError TypeId → Bool
  | .ok a => a ≠ .never
  | .error _ => false

/-- Typing some statements, no local is missed, those of `B` being bound: each but the last has a
value, or else assigns only locals that are bound. -/
def proceed (ctx : Context) (visit : SpecId → Infer TypeId) :
    List Name → List Term → State × Scope → Bool
  | B, t :: u :: ts, s => (inferTerm ctx visit t s).all fun (r, s) =>
      (hasValue r || decide (t.KeepsTo B)) && proceed ctx visit (t.certain ++ B) (u :: ts) s
  | _, _, _ => true

/-- No local is missed at the top level, in as many passes as are run. -/
def passesProceed (ctx : Context) : Nat → Passes → State → Bool
  | 0, _, _ => true
  | left + 1, r, σ =>
    proceed ctx (Infer.visit ctx (nestingBound ctx σ)) [] ctx.main (World.passing σ r.count, {}) &&
      (runPass ctx r σ).all fun (r, σ) => r.converged || passesProceed ctx left r σ

theorem proceed_cons {ctx : Context} {visit : SpecId → Infer TypeId} {B : List Name} {t : Term}
    {ts : List Term} {s s' : State × Scope} {r : Except TypeError TypeId}
    (h : proceed ctx visit B (t :: ts) s = true) (hx : inferTerm ctx visit t s = some (r, s')) :
    (ts ≠ [] → hasValue r = true ∨ t.KeepsTo B) ∧
      proceed ctx visit (t.certain ++ B) ts s' = true := by
  cases ts with
  | nil => exact ⟨fun h => absurd rfl h, by simp [proceed]⟩
  | cons u ts =>
    simp only [proceed, hx, Option.all_some, Bool.and_eq_true, Bool.or_eq_true,
      decide_eq_true_eq] at h
    exact ⟨fun _ => h.1, h.2⟩

end Inference

namespace World

variable {W : World} {τ σ₀ σ σ₁ σ' : State} {S S₁ S' U : Scope} {visit : SpecId → Infer TypeId}
  {a : TypeId} {L L₁ L' : Locals} {B : List Name} {t : Term} {r : Except TypeError TypeId}

/-- After a top-level statement that has a value or keeps to bound locals. -/
theorem Beside.proceeds (hB : Beside τ U B S L) (H : τ.types.WF) (hT : W.Typed τ U t L a L₁)
    (hto : W.To σ S σ₁ S₁) (hg : σ₁.Grows τ) (hr : W.Stays τ (t.KeepsTo B) a L₁ r σ₁ S₁)
    (hp : hasValue r = true ∨ t.KeepsTo B) : Beside τ U (t.certain ++ B) S₁ L₁ := by
  have kept (hk : t.KeepsTo B) (hu : Locals.Under τ.types S₁.locals L₁) :
      Beside τ U (t.certain ++ B) S₁ L₁ :=
    { hB.move hto hu fun _ => hT.grows.bound with
      bound := fun n hn => hT.grows.bound (hB.bound n ((List.mem_append.1 hn).elim
        (Term.mem_of_certain hk) id)) }
  cases r with
  | error e =>
    have hk := hp.resolve_left nofun
    exact kept hk ((hr hg).2 hk)
  | ok b =>
    obtain ⟨hw, hu⟩ := hr.2 hg
    rcases hp with hb | hk
    · have hb : b ≠ .never := of_decide_eq_true hb
      exact hB.next H hT (hw.ne_never H (hr.1.1.mono hg.types) hb) hto (hu (.inl hb))
    · exact kept hk (hu (.inr hk))

section
variable (hτ : W.Rests τ) (hreach : ReachedBy τ U.body)
include hτ hreach

/-- Typing top-level statements that the last pass has typed too. -/
theorem inferStatements_diverges (hv : W.Answering τ σ₀ visit) {ts : List Term}
    (hk : ∀ t ∈ ts, t.Every W.Known) (ho : Term.orderlyOf B ts = true) (h : W.At σ S)
    (h₀ : W.Extends σ₀ σ) (hp : proceed W.ctx visit B ts (σ, S) = true) {last : TypeId}
    (last' : TypeId) (errors : List TypeError) (hJ : σ.Grows τ → W.TypedTop τ U last ts L a L' ∧
      (ts ≠ [] → Beside τ U B S L)) :
    ∃ es b σ' S', inferStatements W.ctx visit errors last' ts (σ, S) =
        some ((errors ++ es, b), σ', S') ∧ W.Extends σ σ' ∧
      (σ'.Grows τ → ∀ e ∈ es, e.IsDivergence) := by
  induction ts generalizing σ S B L last last' errors with
  | nil =>
    exact ⟨[], last', σ, S, by rw [List.append_nil]; rfl, .refl h.ok, by simp⟩
  | cons t ts ih =>
    simp only [Term.orderlyOf, Bool.and_eq_true] at ho
    obtain ⟨b, L₁, hb⟩ := exists_of_imp₂ fun hg => (hJ hg).1
    have hB (hg : σ.Grows τ) : Beside τ U B S L := (hJ hg).2 (List.cons_ne_nil t ts)
    obtain ⟨r, σ₁, S₁, hx, h₁, hto, hr⟩ := inferTerm_stays hv hτ.ok hτ.idle hreach
      (hk t (.head _)) ho.1 h h₀ fun hg => ⟨(hb hg).1, hB hg⟩
    obtain ⟨hvalue, hp₁⟩ := proceed_cons hp hx
    have rest (last₁ : TypeId) (errors : List TypeError) :=
      ih (fun u hu => hk u (.tail _ hu)) ho.2 h₁ (h₀.trans hto.extend) hp₁ last₁ errors fun hg =>
        ⟨(hb (hto.below hg)).2, fun hne => (hB (hto.below hg)).proceeds hτ.ok.types
          (hb (hto.below hg)).1 hto hg hr (hvalue hne)⟩
    rw [inferStatements_cons hx]
    cases r with
    | ok b' =>
      obtain ⟨es, c, σ', S', hrun, he, hes⟩ := rest b' errors
      exact ⟨es, c, σ', S', hrun, hto.extend.trans he, hes⟩
    | error e =>
      obtain ⟨es, c, σ', S', hrun, he, hes⟩ := rest .never (errors ++ [e])
      refine ⟨e :: es, c, σ', S', ?_, hto.extend.trans he, fun hg => ?_⟩
      · rw [following, hrun, List.append_assoc]
        rfl
      · exact List.forall_mem_cons.2 ⟨(hr (he.below hg)).1, hes hg⟩

variable (ho : W.ctx.orderly = true) (hself : U.self = none) (hclass : U.selfClass = none)
  (hT : W.TypedTop τ U .nil W.ctx.main ∅ a L')
include ho hself hclass hT

/-- Typing the top level in a pass. -/
theorem inferTop_diverges (h : W.Ok σ) (hp : proceed W.ctx
      (Infer.visit W.ctx (nestingBound W.ctx σ)) [] W.ctx.main (σ, {}) = true)
    {top : TopResult} (hx : inferTop W.ctx σ = some (top, σ')) (hg : σ'.Grows τ) :
    ∀ e ∈ top.errors, e.IsDivergence := by
  have hmain := ((Bool.and_eq_true _ _).mp ho).2
  obtain ⟨es, b, σ₁, S₁, hrun, he, hes⟩ := inferStatements_diverges (L := ∅) hτ hreach
    (answering_visit hτ ho h) W.main_known hmain ⟨h, scopeOk_empty h⟩ (.refl h) hp .nil []
    fun _ => ⟨hT, fun _ => ⟨hself.symm, hclass.symm, .empty, nofun⟩⟩
  obtain ⟨es', b', σ₁', S₁', hrun', hs⟩ := inferStatements_safe (visits_visit h) W.main_known
    ⟨h, scopeOk_empty h⟩ (.refl h) (.nil h.types W.five_le) []
  cases hrun.symm.trans hrun'
  cases (inferTop_eq hrun).symm.trans hx
  -- The last step only adds types.
  have h₁ := hs.fine
  have hj := union_joins h₁.ok.types hs.values.1 h₁.scope.returns.1
  exact hes ((Extends.of_types h₁.ok hj.wf hj.le).2.below hg)

/-- If the last pass has no errors, and no local is missed in any pass, then all errors reported are
that a limit was reached. -/
theorem runPasses_diverges (left : Nat) {r r' : Passes} (h : W.Ok σ)
    (hn : ∀ s i p, σ.specs.get? s = some i → i.donePass = some p → p < r.count)
    (hp : passesProceed W.ctx left r σ = true) (hrun : runPasses W.ctx left r σ = some (r', τ)) :
    σ.Grows τ ∧ ((∀ e ∈ r.errors, e.IsDivergence) → ∀ e ∈ r'.errors, e.IsDivergence) := by
  induction left generalizing σ r with
  | zero =>
    cases hrun
    exact ⟨h.grows_refl, id⟩
  | succ left ih =>
    have h₁ : W.Ok (World.passing σ r.count) := h.passing hn
    obtain ⟨top, σ', V, htop, hf⟩ := inferTop_safe h₁
    have hpass : σ'.pass = r.count := hf.extend.pass
    simp only [passesProceed, Bool.and_eq_true, runPass_eq htop, Option.all_some,
      Bool.or_eq_true] at hp
    set r₁ : Passes := {
      count := r.count + 1, errors := addErrors r.errors top.errors
      converged := !σ'.changed, last := some top } with hr₁
    have hstep : runPasses W.ctx (left + 1) r σ =
        (if r₁.converged then pure r₁ else runPasses W.ctx left r₁ : Run Passes) σ' := by
      simp only [runPasses]
      show (runPass W.ctx r σ >>= fun p => _) = _
      rw [runPass_eq htop]
      rfl
    rw [hstep] at hrun
    have grows (hg : σ'.Grows τ) : σ.Grows τ := by
      have := hf.extend.below hg
      exact ⟨this.types, this.ivars, this.specs⟩
    have errors (hg : σ'.Grows τ) (he : ∀ e ∈ r.errors, e.IsDivergence) :
        ∀ e ∈ r₁.errors, e.IsDivergence := fun e hmem =>
      (mem_addErrors.1 hmem).elim (he e)
        (inferTop_diverges hτ hreach ho hself hclass hT h₁ hp.1 htop hg e)
    by_cases hc : r₁.converged = true
    · rw [if_pos hc] at hrun
      obtain ⟨hr, hσ⟩ := Prod.mk.inj (Option.some.inj hrun)
      have hg : σ'.Grows τ := hσ ▸ hf.ok.grows_refl
      exact ⟨grows hg, hr ▸ errors hg⟩
    · rw [if_neg hc] at hrun
      obtain ⟨hg, hes⟩ := ih hf.ok (fun s i p hi hp =>
        Nat.lt_succ_of_le ((hf.ok.recent s i p hi hp).trans_eq hpass)) (hp.2.resolve_left hc) hrun
      exact ⟨grows hg, fun he => hes (errors hg he)⟩

end

end World

end Multimethod
