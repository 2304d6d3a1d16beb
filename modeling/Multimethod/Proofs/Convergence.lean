import Multimethod.Proofs.Limits

/-!
# Inference converges

Types of values, keys of specializations and names are finite in number, and every loop of inference
that goes on has made something larger. So with ample limits none is reached, whatever the source
(`check_converges`).
-/

namespace Multimethod

open Inference

variable {names : NameTable} {source : Source}

/-- For every source there is a bound such that limits at least as large are ample: no loop, no
specialization and no number of passes gets that far. -/
theorem exists_ample (names : NameTable) (source : Source) : ∃ N, ∀ {limits : Limits}
    {es : List TypeError} {ctx : Context} {σ : State} (hk : Prepared names source limits es ctx σ)
    (answer : SpecId → Infer TypeId), register names source limits = (es, ctx, σ) →
    N ≤ limits.wideningRounds → N ≤ limits.passes → N ≤ limits.loopRounds →
    (hk.world answer).Ample ∧ (hk.world answer).heaviest < limits.passes := by
  obtain ⟨es₀, ctx₀, σ₀, hreg⟩ := register_limits names source
  obtain ⟨hk₀, -⟩ := check_eq (hreg {})
  set W := hk₀.world Infer.storedType with hW
  refine ⟨max (2 * W.classes + 1) (max (W.names.card * (2 * W.classes + 1) + 1) (W.heaviest + 1)),
    fun {limits es ctx σ} hk answer h hw hp hl => ?_⟩
  obtain ⟨rfl, hrest⟩ := Prod.mk.inj ((hreg limits).symm.trans h)
  obtain ⟨rfl, rfl⟩ := Prod.mk.inj hrest
  set V := hk.world answer with hV
  have hlimits : V.ctx.limits = limits := rfl
  have h₁ : V.classes = W.classes := rfl
  have h₂ : V.names = W.names := rfl
  have h₃ : V.heaviest = W.heaviest := rfl
  rw [World.Ample, h₁, h₂, h₃, hlimits]
  omega

/-- The passes end with one that has changed nothing. -/
theorem runPasses_last {ctx : Context} {r' : Passes} {σ' : State} (hc : r'.converged = true)
    (left : Nat) : ∀ {r : Passes} {σ : State}, r.converged = false →
      runPasses ctx left r σ = some (r', σ') → ∃ r₀ σ₀, runPass ctx r₀ σ₀ = some (r', σ') := by
  induction left with
  | zero =>
    intro r σ hr h
    cases h
    simp [hr] at hc
  | succ left ih =>
    intro r σ _ h
    obtain ⟨⟨r₁, σ₁⟩, hp, h⟩ := Option.bind_eq_some_iff.1 h
    dsimp only at h
    split at h
    · cases h
      exact ⟨r, σ, hp⟩
    · rename_i hr₁
      exact ih (by simpa using hr₁) h

/-- For every source there is a bound such that, with all limits at least as large, inference ends:
the passes end with one that changes nothing, and nothing reports that a limit was reached, neither a
loop nor a specialization nor the passes. -/
theorem check_converges (names : NameTable) (source : Source) : ∃ N, ∀ limits : Limits,
    N ≤ limits.wideningRounds → N ≤ limits.passes → N ≤ limits.loopRounds →
    ∃ passes top σ s r, runPasses (register names source limits).2.1 limits.passes {}
        (register names source limits).2.2 = some (passes, σ) ∧
      (∃ r₀ σ₀, runPass (register names source limits).2.1 r₀ σ₀ = some (passes, σ)) ∧
      σ.changed = false ∧
      infer (register names source limits).2.1 (register names source limits).2.2 =
        some ((passes, top), s) ∧ passes.converged = true ∧
      (∀ e ∈ passes.errors ++ top.errors, ¬ e.IsDivergence) ∧
      check names source limits = some r ∧ ∀ e ∈ r.errors, ¬ e.IsDivergence := by
  obtain ⟨N, hN⟩ := exists_ample names source
  refine ⟨N, fun limits hw hp hl => ?_⟩
  rcases hreg : register names source limits with ⟨es, ctx, σ⟩
  obtain ⟨hk, passes, top, σ₁, σ₂, hrun, htop, hcheck, hinferred⟩ := check_eq hreg
  obtain ⟨U, hi⟩ := hinferred Infer.storedType
  obtain ⟨hample, hpasses⟩ := hN hk Infer.storedType hreg hw hp hl
  have hlimits : ctx.limits = limits := hk.limits
  have hconv : passes.converged = true := hi.converged (hlimits.symm ▸ hpasses)
  have herr : ∀ e ∈ passes.errors ++ top.errors, ¬ e.IsDivergence := fun e he =>
    (List.mem_append.1 he).elim (fun he => hi.excused e he hample)
      fun he => hi.found.excused e he hample
  refine ⟨passes, top, σ₁, World.frozen σ₂, _, hrun, runPasses_last hconv _ rfl hrun,
    (hi.last hconv).1, ?_, hconv, herr, hcheck, fun e he => ?_⟩
  · exact World.infer_eq (W := hk.world Infer.storedType) (hlimits.symm ▸ hrun) htop
  · rcases List.mem_append.1 he with he | he
    · exact hk.errors e he
    · rw [Passes.report, if_pos hconv] at he
      exact herr e (List.mem_append_left _ he)

/-- `foo` and `bar` call each other, and each also returns something itself. In a loop, the top level
assigns to `x` what `bar` returns. -/
def mutualInLoop : Builder := ((do
  Build.function "foo" [] (← Build.cond (← Build.bool true) (← Build.int 1)
    (some (← Build.call none "bar" [])))
  Build.function "bar" [] (← Build.cond (← Build.bool true) (← Build.nil)
    (some (← Build.call none "foo" [])))
  Build.stmt (← Build.loop (← Build.bool true)
    (← Build.assign "x" (← Build.call none "bar" []))) : Build Unit).run {}).2

/-- Both functions are found to return what either does, which takes three passes. -/
theorem check_converges_mutualInLoop : ∃ limits passes σ r,
    runPasses (register mutualInLoop.names mutualInLoop.source limits).2.1 limits.passes {}
      (register mutualInLoop.names mutualInLoop.source limits).2.2 = some (passes, σ) ∧
    passes.count = 3 ∧ σ.changed = false ∧
    σ.specs.entries.entries.toList.map (fun i => σ.types.members i.returnType) =
      [[.nil, .int], [.nil, .int]] ∧
    check mutualInLoop.names mutualInLoop.source limits = some r ∧
    ∀ e ∈ r.errors, ¬ e.IsDivergence := by
  obtain ⟨N, hN⟩ := check_converges mutualInLoop.names mutualInLoop.source
  let limits : Limits := ⟨max N 3, max N 3, max N 3⟩
  obtain ⟨passes, -, σ, -, r, hrun, -, hch, -, -, -, hr, he⟩ :=
    hN limits (le_max_left N 3) (le_max_left N 3) (le_max_left N 3)
  -- Three rounds are enough, so with more of them inference goes the same way.
  obtain ⟨⟨passes', σ'⟩, hrun', hcount, hconv, herr, hreturns⟩ :
      ∃ p ∈ runPasses (register mutualInLoop.names mutualInLoop.source ⟨3, 3, 3⟩).2.1 3 {}
        (register mutualInLoop.names mutualInLoop.source ⟨3, 3, 3⟩).2.2,
      p.1.count = 3 ∧ p.1.converged = true ∧ p.1.errors = [] ∧
      p.2.specs.entries.entries.toList.map (fun i => p.2.types.members i.returnType) =
        [[.nil, .int], [.nil, .int]] := by decide +kernel
  obtain ⟨es, ctx, σ₀, hreg⟩ := register_limits mutualInLoop.names mutualInLoop.source
  have huncut : Uncut passes'.errors := fun e he => by
    rw [show passes'.errors = [] from herr] at he
    cases he
  have hruns : runPasses { ctx with limits } limits.passes {} σ₀ = some (passes', σ') := by
    rw [hreg] at hrun'
    exact (runPasses_uncut (le_max_right N 3) (le_max_right N 3) hconv huncut 3
      (le_max_right N 3) rfl hrun').1
  have hsame : some (passes, σ) = some (passes', σ') := by rw [← hrun, hreg]; exact hruns
  cases hsame
  exact ⟨limits, passes, σ, r, hrun, hcount, hch, hreturns, hr, he⟩

end Multimethod
