import Multimethod.Proofs.Inference.Final
import Multimethod.Proofs.Registration

/-!
# The final typing of the top level agrees with the passes

After the passes, return types are frozen and the top level is typed once more. If all that it calls
has been found to return, this finds what the last pass has found (`check_agrees`). A callee that
never returns is frozen to return `nil`, though, and with that the top level can get as far as calls
that no pass has seen.
-/

namespace Multimethod

open Inference

/-- A source that is checked without errors: its passes converge, and the last one raises no errors
either. -/
theorem last_of_errors {names : NameTable} {source : Source} {limits : Limits}
    {es : List TypeError} {ctx : Context} {σ : State}
    {hk : Prepared names source limits es ctx σ} {answer : SpecId → Infer TypeId} {passes : Passes}
    {top : TopResult} {σ₁ σ₂ : State} {U : Scope}
    (hi : (hk.world answer).Inferred σ passes top σ₁ σ₂ U)
    (he : (CheckResult.of es ctx passes top (World.frozen σ₂)).errors = []) :
    σ₁.changed = false ∧ ∃ last σ₀ U₀, passes.last = some last ∧ last.errors = [] ∧ Closed σ₀ ∧
      (hk.world answer).Found σ₀ σ₁ last U₀ := by
  obtain ⟨-, hreport⟩ := List.append_eq_nil_iff.1 he
  have hconv : passes.converged = true := by
    by_contra hc
    rw [Passes.report, if_neg hc] at hreport
    simp at hreport
  rw [Passes.report, if_pos hconv] at hreport
  obtain ⟨hch, last, σ₀, U₀, hlast, hclosed, hf, hes⟩ := hi.last hconv
  exact ⟨hch, last, σ₀, U₀, hlast,
    List.eq_nil_iff_forall_not_mem.2 fun e he => by simpa [hreport] using hes e he, hclosed, hf⟩

/-- If checking reports no errors and all that the last pass has the top level call returns, the
final typing of the top level is that of the last pass: it raises no errors, its type has values, and
it has the same dispatch rows. In any case its type has values if it raises no errors and changes
nothing. -/
theorem check_agrees {names : NameTable} {source : Source} {limits : Limits} {r : CheckResult}
    (h : check names source limits = some r) (he : r.errors = []) :
    ∃ passes σ last top τ,
      runPasses (register names source limits).2.1 limits.passes {}
        (register names source limits).2.2 = some (passes, σ) ∧
      passes.last = some last ∧
      inferTop (register names source limits).2.1 { σ with specs := σ.specs.freezeAll } = some (top, τ) ∧
      r.program.mainBody = top.body ∧ r.program.mainType = top.type ∧
      ((∀ s i, CalledBy last.body s → σ.specs.get? s = some i → i.returnType ≠ .never) →
        top.errors = [] ∧ top.type = last.type ∧ top.type ≠ .never ∧
        ∀ e receiver args callee, (last.body.dispatchAt e).find? receiver args = some callee →
          (top.body.dispatchAt e).find? receiver args = some callee) ∧
      (top.errors = [] → τ.changed = false → top.type ≠ .never) := by
  rcases hreg : register names source limits with ⟨es, ctx, σ₀⟩
  obtain ⟨hk, passes, top, σ, τ, hrun, htop, hcheck, hinferred⟩ := check_eq hreg
  obtain ⟨U, hi⟩ := hinferred (Infer.visit ctx (nestingBound ctx (World.frozen σ)))
  obtain rfl := Option.some.inj (h.symm.trans hcheck)
  obtain ⟨hch, last, σ', U', hlast, hnone, -, hf⟩ := last_of_errors hi he
  refine ⟨passes, σ, last, top, τ, hrun, hlast, htop, rfl, rfl, fun hcalled => ?_, fun he hc => ?_⟩
  · have hret := hf.returning hcalled
    have hagrees := hf.agrees hnone hch hret rfl
    obtain ⟨rfl, rfl⟩ := Prod.mk.inj (Option.some.inj (hagrees.symm.trans htop))
    exact ⟨hnone, rfl, hf.type_ne_never hnone hch hret, fun _ _ _ _ h => h⟩
  · have hret := World.returning_frozen hi.idle hi.found.extend hc hi.found.scope.rows
    exact hi.found.type_ne_never he hc (hi.found.body ▸ hret)

/-- The top level calls a function that returns. -/
def returning : Builder := ((do
  Build.function "one" [] (← Build.int 1)
  Build.stmt (← Build.call none "one" []) : Build Unit).run {}).2

theorem check_agrees_returning : ∃ r, check returning.names returning.source {} = some r ∧
    r.errors = [] ∧ r.program.mainType ≠ .never := by
  obtain ⟨r, hr, he⟩ : ∃ r ∈ check returning.names returning.source {}, r.errors = [] := by
    decide +kernel
  obtain ⟨passes, σ, last, top, τ, hrun, -, -, -, htype, hagrees, -⟩ := check_agrees hr he
  have hall : (runPasses (register returning.names returning.source {}).2.1
      ({} : Limits).passes {} (register returning.names returning.source {}).2.2).all (fun p =>
        p.2.specs.entries.entries.all fun i => decide (i.returnType ≠ .never)) = true := by
    decide +kernel
  rw [hrun] at hall
  have hret := fun s i (_ : CalledBy last.body s) (hi : σ.specs.get? s = some i) =>
    of_decide_eq_true (Array.all_eq_true'.1 hall i (Array.mem_of_getElem? hi))
  exact ⟨r, hr, he, htype ▸ (hagrees hret).2.2.1⟩

/-- `foo` and `bar` never return. Once `foo` is frozen to return `nil`, the top level gets as far as
calling `bar`. -/
def unreturned : Builder := ((do
  Build.function "foo" [] (← Build.call none "foo" [])
  let x ← Build.param "x" none none
  Build.function "bar" [x] (← Build.call none "bar" [← Build.var "x"])
  Build.stmt (← Build.call none "bar" [← Build.call none "foo" []]) : Build Unit).run {}).2

/-- Without errors, the final typing may give the top level a type without values. -/
theorem check_unreturned : ∃ r ∈ check unreturned.names unreturned.source {},
    r.errors = [] ∧ r.program.mainType = .never := by decide +kernel

end Multimethod
