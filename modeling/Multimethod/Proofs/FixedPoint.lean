import Multimethod.Proofs.Convergence

/-!
# A converged inference is a fixed point

A specialization may have been evaluated while others were under way that still had provisional
return types, and is then skipped for the rest of the pass. If the pass changed nothing, what was
stored of it is what evaluating it in the final state finds (`check_fixedPoint`).
-/

namespace Multimethod

open Inference

/-- If the passes converge, then evaluating any specialization that the last one has evaluated once
more, with all visits answered by the stored return types, finds the stored body, changes nothing at
all, and gives no member that the stored return type lacks. -/
theorem check_fixedPoint (names : NameTable) (source : Source) (limits : Limits) :
    ∃ passes σ, runPasses (register names source limits).2.1 limits.passes {}
        (register names source limits).2.2 = some (passes, σ) ∧
      (passes.converged = true → ∀ s i, σ.specs.get? s = some i → i.donePass = some σ.pass →
        ∃ a, Infer.evaluate (register names source limits).2.1 Infer.storedType i.key σ =
            some (.ok (a, i.body), σ) ∧
          ∀ m ∈ σ.types.members a, m ∈ σ.types.members i.returnType) := by
  rcases hreg : register names source limits with ⟨es, ctx, σ₀⟩
  obtain ⟨hk, passes, top, σ, σ₂, hrun, -, -, hinferred⟩ := check_eq hreg
  refine ⟨passes, σ, hrun, fun hc s i hs hd => ?_⟩
  obtain ⟨U, hi⟩ := hinferred Infer.storedType
  obtain ⟨hch, -⟩ := hi.last hc
  obtain ⟨a, hev, hin⟩ := (hi.passed.settled s i hs (hi.idle s i hs) hd hch σ
    (hi.passed.later_refl _)).again (World.recalls_storedType rfl σ)
  exact ⟨a, hev, hin.2.2⟩

/-- `bar` and `foo` call each other. What the last pass has stored of `bar` is found again when the
call of `foo` is answered by the stored return type. -/
theorem check_fixedPoint_mutualInLoop : ∃ passes σ i j a,
    runPasses (register mutualInLoop.names mutualInLoop.source {}).2.1 ({} : Limits).passes {}
      (register mutualInLoop.names mutualInLoop.source {}).2.2 = some (passes, σ) ∧
    passes.converged = true ∧ passes.count = 3 ∧
    σ.specs.get? ⟨0⟩ = some i ∧ i.donePass = some σ.pass ∧ CalledBy i.body ⟨1⟩ ∧
    σ.specs.get? ⟨1⟩ = some j ∧ CalledBy j.body ⟨0⟩ ∧
    Infer.evaluate (register mutualInLoop.names mutualInLoop.source {}).2.1 Infer.storedType i.key
      σ = some (.ok (a, i.body), σ) ∧
    ∀ m ∈ σ.types.members a, m ∈ σ.types.members i.returnType := by
  obtain ⟨passes, σ, hrun, hfixed⟩ := check_fixedPoint mutualInLoop.names mutualInLoop.source {}
  obtain ⟨⟨passes', σ'⟩, hrun', hconv, hcount, ⟨i, hi, hd, hcalled⟩, j, hj, hcalled'⟩ :
      ∃ p ∈ runPasses (register mutualInLoop.names mutualInLoop.source {}).2.1
        ({} : Limits).passes {} (register mutualInLoop.names mutualInLoop.source {}).2.2,
      p.1.converged = true ∧ p.1.count = 3 ∧
      (∃ i ∈ p.2.specs.get? ⟨0⟩, i.donePass = some p.2.pass ∧
        (i.body.dispatchAt ⟨6⟩).find? none [] = some (.specialization ⟨1⟩)) ∧
      ∃ j ∈ p.2.specs.get? ⟨1⟩,
        (j.body.dispatchAt ⟨2⟩).find? none [] = some (.specialization ⟨0⟩) := by decide +kernel
  cases hrun.symm.trans hrun'
  obtain ⟨a, hev, hin⟩ := hfixed hconv ⟨0⟩ i hi hd
  exact ⟨passes, σ, i, j, a, hrun, hconv, hcount, hi, hd, ⟨_, _, _, hcalled⟩, hj,
    ⟨_, _, _, hcalled'⟩, hev, hin⟩

end Multimethod
