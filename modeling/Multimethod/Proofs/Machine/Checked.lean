import Multimethod.Proofs.Agreement
import Multimethod.Proofs.Machine.Step

/-!
# Programs that were checked without errors

If checking reports no errors, the passes have converged, and a run can rely on what the last one
found (`Machine.Converged.of`), wherever the final typing of the top level has gone.
-/

namespace Multimethod

open Inference TypeTable

namespace World

variable {W : World} {σ : State}

/-- Freezing only widens return types. -/
theorem Ok.grows_frozen (h : W.Ok σ) : σ.Grows (World.frozen σ) where
  types := le_refl _
  ivars c n a ha := ⟨a, ha, .refl (h.ivars c n a ha).1⟩
  specs s i hi := by
    refine ⟨i.freeze, ?_, i.key_freeze, ?_⟩
    · rw [show (World.frozen σ).specs.get? s = _ from Specializations.get?_freezeAll, hi]
      rfl
    · have hv := (h.returns s i hi).1
      unfold Specialization.freeze
      split
      · exact .refl hv
      · dsimp only
        split
        · rename_i hn
          rw [hn]
          exact .never h.types h.types.has_nil
        · exact .refl hv

/-- Freezing leaves bodies as they are. -/
theorem get?_frozen_body {s : SpecId} {i : Specialization} (hi : σ.specs.get? s = some i) :
    ∃ j, (World.frozen σ).specs.get? s = some j ∧ j.body = i.body := by
  refine ⟨i.freeze, ?_, body_freeze i⟩
  rw [show (World.frozen σ).specs.get? s = _ from Specializations.get?_freezeAll, hi]
  rfl

end World

/-- What a run of a checked program relies on. The program has the rows of the last pass if the
final typing of the top level finds the same. -/
def Machine.Converged.of {names : NameTable} {source : Source} {limits : Limits}
    {es : List TypeError} {ctx : Context} {σ : State}
    {hk : Prepared names source limits es ctx σ} {answer : SpecId → Infer TypeId} {passes : Passes}
    {top last : TopResult} {σ₀ σ₁ σ₂ : State} {U U₀ : Scope}
    (hi : (hk.world answer).Inferred σ passes top σ₁ σ₂ U) (hclosed : Closed σ₀)
    (hf : (hk.world answer).Found σ₀ σ₁ last U₀) (he : last.errors = [])
    (hc : σ₁.changed = false) : Machine.Converged where
  W := hk.world answer
  τ := σ₁
  top := U₀
  type := last.type
  program := (CheckResult.of es ctx passes top (World.frozen σ₂)).program
  final := World.frozen σ₂
  Strict := top = last ∧ σ₂ = World.frozen σ₁
  ok := hi.passed
  idle := hi.idle
  closed := (hf.closed he hclosed).1
  checks s i hs hd := (hi.passed.settled s i hs (hi.idle s i hs) hd hc σ₁
    (hi.passed.later_refl _)).checks
  topSelf := hf.self
  topClass := hf.selfClass
  topRows := hf.self ▸ hf.scope.rows
  topReached := (hf.closed he hclosed).2
  topTyped := by
    obtain ⟨a, ht, hj⟩ := hf.typed he hc σ₁ (hi.passed.later_refl _)
    exact ⟨a, U₀.locals, ht, hj.left⟩
  topReturns := by
    obtain ⟨a, -, hj⟩ := hf.typed he hc σ₁ (hi.passed.later_refl _)
    exact hj.right
  finalOk := hi.ok
  grows := hi.passed.grows_frozen.trans (hi.found.extend.toGrows.trans hi.found.ok.grows_frozen)
  types_eq := rfl
  specs_eq := rfl
  methods_eq := rfl
  terms_eq := rfl
  main_eq := rfl
  find?_eq n := by
    rw [← show (World.frozen σ₂).hierarchy.tree = (hk.world answer).tree from hi.ok.tree]
    rfl
  mainRows := hi.rows
  strict_main h := by rw [h.1]; exact hf.body.symm
  strict_spec h s i hs := by
    obtain ⟨j, hj, hb⟩ := World.get?_frozen_body hs
    obtain ⟨l, hl, hb'⟩ := World.get?_frozen_body hj
    exact ⟨l, h.2 ▸ hl, hb'.trans hb⟩

end Multimethod
