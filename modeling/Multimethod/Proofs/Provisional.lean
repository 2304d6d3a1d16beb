import Multimethod.Proofs.Convergence
import Multimethod.Proofs.Pass.Passes

/-!
# Errors of early passes

In an early pass, callees may have no return type yet. What a pass reports then is reported in the
end, whether or not the last pass finds it again. Mutual recursion alone does not lead to such
errors, as what depends on a missing value is not typed. Where inference goes on all the same, the
missing value may be that of a local, though, and a source whose last pass has no errors gets the
errors of an earlier one (`check_misled`).

It does not if it is orderly and no pass misses a local at the top level (`check_provisional`). That
is enough but not necessary, as a missing local may be one that nothing reads, and it is shown only of
sources whose last pass has no errors.
-/

namespace Multimethod

open Inference

/-- If a source is orderly and no pass misses a local at the top level, the passes converge and the
last one has no errors, then the errors of inference are at most that some limit was reached. With
ample limits there are none. -/
theorem check_provisional (names : NameTable) (source : Source) : ∃ N, ∀ limits : Limits,
    ∃ passes σ r,
      runPasses (register names source limits).2.1 limits.passes {}
        (register names source limits).2.2 = some (passes, σ) ∧
      check names source limits = some r ∧
      (passes.converged = true → (∀ last ∈ passes.last, last.errors = []) →
        (register names source limits).2.1.orderly = true →
        passesProceed (register names source limits).2.1 limits.passes {}
          (register names source limits).2.2 = true →
        ∃ es, r.errors = (register names source limits).1 ++ es ∧ (∀ e ∈ es, e.IsDivergence) ∧
          (N ≤ limits.wideningRounds → N ≤ limits.passes → N ≤ limits.loopRounds → es = [])) := by
  obtain ⟨N, hN⟩ := exists_ample names source
  refine ⟨N, fun limits => ?_⟩
  rcases hreg : register names source limits with ⟨es, ctx, σ⟩
  obtain ⟨hk, passes, top, σ₁, σ₂, hrun, -, hcheck, hinferred⟩ := check_eq hreg
  obtain ⟨U, hi⟩ := hinferred Infer.storedType
  refine ⟨passes, σ₁, _, hrun, hcheck, fun hconv hnone ho hp => ?_⟩
  -- The state in which the passes end, and what the last one has found of the top level.
  obtain ⟨hch, last, σ₀, U₀, hlast, hclosed, hf, -⟩ := hi.last hconv
  have herr : last.errors = [] := hnone last hlast
  obtain ⟨hcl, hreach⟩ := hf.closed herr hclosed
  have hrests : (hk.world Infer.storedType).Rests σ₁ := ⟨hi.passed, hi.idle, hch, hcl⟩
  obtain ⟨a, hT, -⟩ := hf.typed herr hch σ₁ (hi.passed.later_refl _)
  have hdone : ∀ s i p, σ.specs.get? s = some i → i.donePass = some p → p < 0 := fun s i p hs => by
    simp [hk.get?_specs] at hs
  have hdiv : ∀ e ∈ passes.errors, e.IsDivergence :=
    (World.runPasses_diverges hrests hreach ho hf.self hf.selfClass hT limits.passes (hk.ok _) hdone
      hp hrun).2 nofun
  refine ⟨passes.errors, by simp [CheckResult.of, Passes.report, hconv], hdiv, fun hw hq hl => ?_⟩
  have hample := (hN hk Infer.storedType hreg hw hq hl).1
  exact List.eq_nil_iff_forall_not_mem.2 fun e he => hi.excused e he hample (hdiv e he)

/-- `foo` and `bar` call each other, and only `foo` returns something itself. -/
def mutualRecursion : Build Unit := do
  Build.function "foo" [] (← Build.cond (← Build.bool true) (← Build.int 1)
    (some (← Build.call none "bar" [])))
  Build.function "bar" [] (← Build.call none "foo" [])
  let x ← Build.param "x" (some (.named (← Build.name "Int"))) none
  Build.function "inc" [x] (← Build.var "x")
  Build.stmt (← Build.call none "foo" [])

/-- The top level calls `inc` with what `bar` returns. In the first pass, this is nothing. -/
def awaited : Builder := ((do
  mutualRecursion
  Build.stmt (← Build.call none "inc" [← Build.call none "bar" []]) : Build Unit).run {}).2

theorem check_provisional_awaited : ∃ passes σ r,
    runPasses (register awaited.names awaited.source {}).2.1 ({} : Limits).passes {}
      (register awaited.names awaited.source {}).2.2 = some (passes, σ) ∧ passes.count = 3 ∧
    check awaited.names awaited.source {} = some r ∧ ∀ e ∈ r.errors, e.IsDivergence := by
  obtain ⟨N, hN⟩ := check_provisional awaited.names awaited.source
  obtain ⟨passes, σ, r, hrun, hr, herrors⟩ := hN {}
  obtain ⟨⟨passes', σ'⟩, hrun', hcount, hconv, hlast⟩ :
      ∃ p ∈ runPasses (register awaited.names awaited.source {}).2.1 ({} : Limits).passes {}
        (register awaited.names awaited.source {}).2.2,
        p.1.count = 3 ∧ p.1.converged = true ∧ ∀ last ∈ p.1.last, last.errors = [] := by
    decide +kernel
  cases hrun.symm.trans hrun'
  obtain ⟨es, hes, hdiv, -⟩ := herrors hconv hlast (by decide +kernel) (by decide +kernel)
  have hreg : (register awaited.names awaited.source {}).1 = [] := by decide +kernel
  rw [hreg, List.nil_append] at hes
  exact ⟨passes, σ, r, hrun, hcount, hr, hes ▸ hdiv⟩

/-- The top level assigns to `x` what `bar` returns, and calls `inc` with `x`. In the first pass, `x`
is not bound. -/
def misled : Builder := ((do
  mutualRecursion
  Build.stmt (← Build.assign "x" (← Build.call none "bar" []))
  Build.stmt (← Build.call none "inc" [← Build.var "x"]) : Build Unit).run {}).2

/-- An error that the last pass does not have, as all types are known then. -/
theorem check_misled :
    (∃ p ∈ runPasses (register misled.names misled.source {}).2.1 ({} : Limits).passes {}
        (register misled.names misled.source {}).2.2,
      p.1.converged = true ∧ ∀ last ∈ p.1.last, last.errors = []) ∧
    (register misled.names misled.source {}).1 = [] ∧
    ∃ r ∈ check misled.names misled.source {}, r.program.mainType = .int ∧
      r.errors.map (·.cause) = [.restrictionViolation "inc" "x" "Int" "Nil"] := by decide +kernel

end Multimethod
