import Multimethod.Proofs.Registration

/-!
# Limits only cut inference short

A computation of inference that ends without reaching a limit ends the same way under larger limits
(`Outlasts`): the limits are read only where a round too many is refused. So limits decide whether
checking is cut short, but not what it finds (`check_limits`).
-/

namespace Multimethod

open Inference

namespace Inference

variable {α β S : Type}

/-- The result is the complaint that a limit was reached. -/
def CutShort : Except TypeError α → Prop
  | .ok _ => False
  | .error e => e.IsDivergence

/-- Wherever `x` ends without having been cut short, `y` ends too, with the same result and in the
same state. -/
def Outlasts (y x : ExceptT TypeError (StateT S Option) α) : Prop :=
  ∀ s r s', x s = some (r, s') → ¬ CutShort r → y s = some (r, s')

namespace Outlasts

variable {x y : ExceptT TypeError (StateT S Option) α}
  {f g : α → ExceptT TypeError (StateT S Option) β}

theorem refl (x : ExceptT TypeError (StateT S Option) α) : Outlasts x x := fun _ _ _ h _ => h

/-- A computation that is cut short from wherever it is run. -/
theorem throw {e : TypeError} (he : e.IsDivergence) :
    Outlasts y (MonadExcept.throw e : ExceptT TypeError (StateT S Option) α) := by
  intro s r s' h hr
  cases h
  exact absurd he hr

theorem bind (hx : Outlasts y x) (hf : ∀ a, Outlasts (g a) (f a)) :
    Outlasts (y >>= g) (x >>= f) := by
  intro s r s' h hr
  change (x s >>= fun p => (ExceptT.bindCont f p.1 : StateT S Option _) p.2) = _ at h
  show (y s >>= fun p => (ExceptT.bindCont g p.1 : StateT S Option _) p.2) = _
  cases hxs : x s with
  | none => rw [hxs] at h; cases h
  | some p =>
    obtain ⟨r₁, s₁⟩ := p
    rw [hxs] at h
    cases r₁ with
    | error e =>
      cases h
      rw [hx _ _ _ hxs hr]
      rfl
    | ok a =>
      rw [hx _ _ _ hxs id]
      exact hf a s₁ r s' h hr

/-- A computation whose result is handed on, if what comes after it ends as it has ended. -/
theorem attempt (hx : Outlasts y x) {f : Except TypeError α → ExceptT TypeError (StateT S Option) β}
    {g : Except TypeError α → ExceptT TypeError (StateT S Option) β}
    (hf : ∀ r, Outlasts (g r) (f r))
    (hend : ∀ e s, ∃ s', f (.error e) s = some (.error e, s')) :
    Outlasts (ExceptT.lift y.run >>= g) (ExceptT.lift x.run >>= f) := by
  intro s r s' h hr
  change ((x s >>= fun p => some (Except.ok p.1, p.2)) >>= fun p =>
    (ExceptT.bindCont f p.1 : StateT S Option _) p.2) = _ at h
  show ((y s >>= fun p => some (Except.ok p.1, p.2)) >>= fun p =>
    (ExceptT.bindCont g p.1 : StateT S Option _) p.2) = _
  cases hxs : x s with
  | none => rw [hxs] at h; cases h
  | some p =>
    obtain ⟨r₁, s₁⟩ := p
    rw [hxs] at h
    change f r₁ s₁ = some (r, s') at h
    have hr₁ : ¬ CutShort r₁ := by
      cases r₁ with
      | ok a => exact id
      | error e =>
        obtain ⟨s₂, hs₂⟩ := hend e s₁
        cases hs₂.symm.trans h
        exact hr
    rw [hx _ _ _ hxs hr₁]
    exact hf r₁ s₁ r s' h hr

theorem lift {x y : Infer α} (h : Outlasts y x) : Outlasts (InferIn.lift y) (InferIn.lift x) := by
  rintro ⟨s, scope⟩ r s' hs hr
  change (x s >>= fun p => some (p.1, p.2, scope)) = _ at hs
  show (y s >>= fun p => some (p.1, p.2, scope)) = _
  cases hxs : x s with
  | none => rw [hxs] at hs; cases hs
  | some p =>
    rw [hxs] at hs
    cases hs
    rw [h _ _ _ hxs hr]
    rfl

theorem within {x y : InferIn α} (h : Outlasts y x) (scope : Scope) :
    Outlasts (Infer.within scope y) (Infer.within scope x) := by
  intro s r s' hs hr
  change (x (s, scope) >>= fun p => some (p.1.map fun a => (a, p.2.2), p.2.1)) = _ at hs
  show (y (s, scope) >>= fun p => some (p.1.map fun a => (a, p.2.2), p.2.1)) = _
  cases hxs : x (s, scope) with
  | none => rw [hxs] at hs; cases hs
  | some p =>
    obtain ⟨r₁, s₁⟩ := p
    rw [hxs] at hs
    cases hs
    have hr₁ : ¬ CutShort r₁ := by
      cases r₁ with
      | ok a => exact id
      | error e => exact hr
    rw [h _ _ _ hxs hr₁]
    rfl

end Outlasts

end Inference

section
variable {ctx : Context} {limits : Limits} {visit visit' : SpecId → Infer TypeId}
  (hv : ∀ s, Outlasts (visit' s) (visit s))

/-! ## Calls -/

namespace Infer

include hv

theorem visitInitializers_outlasts (object : TypeId) (args : List TypeId) (ms : List MethodId) :
    ∀ last, Outlasts (visitInitializers visit' object args last ms)
      (visitInitializers visit object args last ms) := by
  induction ms with
  | nil => exact fun _ => .refl _
  | cons m ms ih =>
    intro last
    simp only [visitInitializers]
    exact .bind (.refl _) fun id => .bind (hv id) fun _ => ih (some id)

theorem inferCreation_outlasts (c : ClassId) (args : List TypeId) (span : Span) :
    Outlasts (inferCreation { ctx with limits } visit' c args span)
      (inferCreation ctx visit c args span) := by
  unfold inferCreation
  refine .bind (.refl _) fun object => .bind (.refl _) fun g => .bind (.refl _) fun σ => ?_
  dsimp only
  split
  · exact .refl _
  · exact .bind (.refl _) fun resolution =>
      .bind (visitInitializers_outlasts hv _ _ _ _) fun _ => .refl _

theorem inferEntry_outlasts (span : Span) (e : ResolutionEntry) :
    Outlasts (inferEntry { ctx with limits } visit' span e) (inferEntry ctx visit span e) := by
  unfold inferEntry
  split
  · exact .bind (.refl _) fun id => .bind (hv id) fun _ => .refl _
  · exact .refl _
  · exact inferCreation_outlasts hv _ _ _

theorem inferEntries_outlasts (span : Span) (es : Resolution) : ∀ a table,
    Outlasts (inferEntries { ctx with limits } visit' span a table es)
      (inferEntries ctx visit span a table es) := by
  induction es with
  | nil => exact fun _ _ => .refl _
  | cons e es ih =>
    intro a table
    simp only [inferEntries]
    exact .bind (inferEntry_outlasts hv span e) fun _ => .bind (.refl _) fun b => ih b _

theorem inferCall_outlasts (receiver : Option TypeId) (self : TypeId) (method : Name)
    (args : List TypeId) (span : Span) :
    Outlasts (inferCall { ctx with limits } visit' receiver self method args span)
      (inferCall ctx visit receiver self method args span) := by
  unfold inferCall
  exact .bind (.refl _) fun g => .bind (.refl _) fun r => inferEntries_outlasts hv span r _ _

end Infer

/-! ## Terms -/

namespace InferIn

variable {x y x' y' : InferIn TypeId}

theorem recorded_outlasts (site : Site) (hx : Outlasts x' x) :
    Outlasts (recorded site x') (recorded site x) := .bind hx fun _ => .refl _

theorem unlessNever_outlasts (a : TypeId) (hx : Outlasts x' x) :
    Outlasts (unlessNever a x') (unlessNever a x) := by
  unfold unlessNever
  split
  · exact .refl _
  · exact hx

theorem narrowing_outlasts (test : Term) (hx : Outlasts x' x) :
    Outlasts (narrowing test x') (narrowing test x) := by
  unfold narrowing
  split
  · exact hx
  · exact .bind (.refl _) fun _ => .bind (.refl _) fun _ => .bind (.refl _) fun _ =>
      .attempt hx (fun _ => .refl _) fun e s => ⟨_, rfl⟩

theorem joining_outlasts (entry : Locals) (a : TypeId) (hx : Outlasts x' x) :
    Outlasts (joining entry a x') (joining entry a x) :=
  .bind (.refl _) fun _ => .bind (.refl _) fun _ => .bind hx fun _ => .refl _

theorem withArgs_outlasts {as as' : InferIn (Option (List TypeId))}
    {f f' : List TypeId → InferIn TypeId} (has : Outlasts as' as)
    (hf : ∀ bs, Outlasts (f' bs) (f bs)) :
    Outlasts
      (do match ← as' with
        | none => return .never
        | some bs => f' bs)
      (do match ← as with
        | none => return .never
        | some bs => f bs) := by
  refine .bind has fun bs => ?_
  cases bs with
  | none => exact .refl _
  | some bs => exact hf bs

theorem connective_outlasts (hx : Outlasts x' x) (hy : Outlasts y' y) :
    Outlasts
      (do
        let a ← x'
        unlessNever a do
          let bound ← locals
          let b ← y'
          orNilExcept bound
          union a b)
      (do
        let a ← x
        unlessNever a do
          let bound ← locals
          let b ← y
          orNilExcept bound
          union a b) :=
  .bind hx fun a => unlessNever_outlasts a <| .bind (.refl _) fun _ => .bind hy fun _ => .refl _

/-- One round of a loop, with what is done after a round that changed the locals. -/
theorem round_outlasts (hx : Outlasts x' x) (hy : Outlasts y' y) (bound : Option Locals)
    (next next' : Locals → InferIn Unit) (hnext : ∀ b, Outlasts (next' b) (next b)) :
    Outlasts
      (do
        let before ← locals
        let a ← x'
        let bound := bound.getD (← locals)
        if a ≠ .never then
          let _ ← y'
        if (← locals) = before then orNilExcept bound
        else next' bound)
      (do
        let before ← locals
        let a ← x
        let bound := bound.getD (← locals)
        if a ≠ .never then
          let _ ← y
        if (← locals) = before then orNilExcept bound
        else next bound) := by
  refine .bind (.refl _) fun before => .bind hx fun a => .bind (.refl _) fun now => ?_
  have rest : Outlasts
      (do if (← locals) = before then orNilExcept (bound.getD now) else next' (bound.getD now))
      (do if (← locals) = before then orNilExcept (bound.getD now) else
        next (bound.getD now)) := by
    refine .bind (.refl _) fun after => ?_
    split
    · exact .refl _
    · exact hnext _
  dsimp only
  split
  · exact .bind hy fun _ => rest
  · exact rest

/-- A loop that is not cut short has no more rounds for being allowed more. -/
theorem inferLoop_outlasts (site : Site) (hx : Outlasts x' x) (hy : Outlasts y' y) (left : Nat) :
    ∀ {left' : Nat} bound, left ≤ left' →
      Outlasts (inferLoop { ctx with limits } site x' y' left' bound)
        (inferLoop ctx site x y left bound) := by
  induction left with
  | zero =>
    intro left' bound _
    rw [World.inferLoop_zero]
    cases left' with
    | zero =>
      rw [World.inferLoop_zero]
      exact round_outlasts hx hy bound (fun _ => throw _) (fun _ => throw _)
        fun _ => .throw ⟨_, _, rfl⟩
    | succ left' =>
      rw [World.inferLoop_succ]
      exact round_outlasts hx hy bound (fun _ => throw _)
        (fun b => inferLoop { ctx with limits } site x' y' left' (some b))
        fun _ => .throw ⟨_, _, rfl⟩
  | succ left ih =>
    intro left' bound hle
    obtain ⟨left', rfl⟩ : ∃ k, left' = k + 1 := ⟨left' - 1, by omega⟩
    rw [World.inferLoop_succ, World.inferLoop_succ]
    exact round_outlasts hx hy bound (fun b => inferLoop ctx site x y left (some b))
      (fun b => inferLoop { ctx with limits } site x' y' left' (some b))
      fun _ => ih _ (by omega)

theorem inferCallAt_outlasts (hv : ∀ s, Outlasts (visit' s) (visit s)) (site : Site)
    (receiver : Option TypeId) (method : Name) (args : List TypeId) :
    Outlasts (inferCallAt { ctx with limits } visit' site receiver method args)
      (inferCallAt ctx visit site receiver method args) :=
  .bind (.refl _) fun _ => .bind (.lift (Infer.inferCall_outlasts hv _ _ _ _ _)) fun _ => .refl _

section
set_option linter.unusedSectionVars false
variable (hl : ctx.limits.loopRounds ≤ limits.loopRounds)
include hv hl

mutual

theorem inferTerm_outlasts : ∀ t : Term,
    Outlasts (inferTerm { ctx with limits } visit' t) (inferTerm ctx visit t)
  | .nil _ | .bool _ _ | .int _ _ | .float _ _ | .self _ | .var _ _ | .ivar _ _ | .const _ _
  | .ret _ => by simp only [inferTerm]; exact .refl _
  | .assign site n value | .setIvar site n value | .retValue site value => by
    simp only [inferTerm]
    exact recorded_outlasts site (.bind (inferTerm_outlasts value) fun _ => .refl _)
  | .call site receiver method args => by
    simp only [inferTerm]
    exact recorded_outlasts site (.bind (inferTerm_outlasts receiver) fun a =>
      unlessNever_outlasts a (withArgs_outlasts (inferArgs_outlasts args) fun as =>
        inferCallAt_outlasts hv site _ method as))
  | .send site method args => by
    simp only [inferTerm]
    exact recorded_outlasts site (withArgs_outlasts (inferArgs_outlasts args) fun as =>
      inferCallAt_outlasts hv site _ method as)
  | .ifThen site test yes => by
    simp only [inferTerm]
    exact recorded_outlasts site (.bind (inferTerm_outlasts test) fun a =>
      unlessNever_outlasts a (.bind (.refl _) fun entry =>
        .bind (narrowing_outlasts test (inferTerm_outlasts yes)) fun _ => .refl _))
  | .ifElse site test yes no => by
    simp only [inferTerm]
    exact recorded_outlasts site (.bind (inferTerm_outlasts test) fun a =>
      unlessNever_outlasts a (.bind (.refl _) fun entry =>
        .bind (narrowing_outlasts test (inferTerm_outlasts yes)) fun b =>
          joining_outlasts entry b (inferTerm_outlasts no)))
  | .loop site test body => by
    simp only [inferTerm]
    exact recorded_outlasts site (.bind (inferLoop_outlasts site (inferTerm_outlasts test)
      (inferTerm_outlasts body) _ none (Nat.sub_le_sub_right hl 1)) fun _ => .refl _)
  | .andAlso site left right | .orElse site left right => by
    simp only [inferTerm]
    exact recorded_outlasts site
      (connective_outlasts (inferTerm_outlasts left) (inferTerm_outlasts right))
  | .block site stmts => by
    simp only [inferTerm]
    exact recorded_outlasts site (inferStmts_outlasts stmts .nil)
  | .primitive site op args => by
    simp only [inferTerm]
    exact recorded_outlasts site (withArgs_outlasts (inferArgs_outlasts args) fun _ => .refl _)

theorem inferArgs_outlasts : ∀ ts : List Term,
    Outlasts (inferArgs { ctx with limits } visit' ts) (inferArgs ctx visit ts)
  | [] => by simp only [inferArgs]; exact .refl _
  | t :: ts => by
    simp only [inferArgs]
    refine .bind (inferTerm_outlasts t) fun a => ?_
    split
    · exact .refl _
    · exact .bind (inferArgs_outlasts ts) fun _ => .refl _

theorem inferStmts_outlasts : ∀ (ts : List Term) (last : TypeId),
    Outlasts (inferStmts { ctx with limits } visit' last ts) (inferStmts ctx visit last ts)
  | [], last => by simp only [inferStmts]; exact .refl _
  | t :: ts, last => by
    simp only [inferStmts]
    refine .bind (inferTerm_outlasts t) fun a => ?_
    split
    · exact .refl _
    · exact inferStmts_outlasts ts a

end

end

end InferIn

/-! ## Evaluations -/

namespace Infer

section
variable (hl : ctx.limits.loopRounds ≤ limits.loopRounds)
include hv hl

theorem inferDefault_outlasts (m : Method) (key : SpecKey) (i : Nat) (p : Param) :
    Outlasts (inferDefault { ctx with limits } visit' m key i p)
      (inferDefault ctx visit m key i p) := by
  unfold inferDefault
  split
  · exact .refl _
  · exact .bind (InferIn.inferTerm_outlasts hv hl _) fun _ => .refl _

theorem bindParams_outlasts (m : Method) (key : SpecKey) (ps : List Param) : ∀ i,
    Outlasts (bindParams { ctx with limits } visit' m key i ps)
      (bindParams ctx visit m key i ps) := by
  induction ps with
  | nil => exact fun _ => .refl _
  | cons p ps ih =>
    intro i
    simp only [bindParams]
    split
    · exact .bind (.refl _) fun _ => .bind (.refl _) fun _ => ih (i + 1)
    · exact .bind (inferDefault_outlasts hv hl m key i p) fun _ => .bind (.refl _) fun _ =>
        ih (i + 1)

theorem inferBody_outlasts (m : Method) (key : SpecKey) :
    Outlasts (inferBody { ctx with limits } visit' m key) (inferBody ctx visit m key) := by
  unfold inferBody
  exact .bind (bindParams_outlasts hv hl m key _ 0) fun _ =>
    .bind (InferIn.inferTerm_outlasts hv hl _) fun _ => .refl _

theorem evaluate_outlasts (key : SpecKey) :
    Outlasts (evaluate { ctx with limits } visit' key) (evaluate ctx visit key) := by
  unfold evaluate
  dsimp only
  split
  · exact .refl _
  · exact .bind (.refl _) fun _ => .bind (.within (inferBody_outlasts hv hl _ key) _) fun _ =>
      .refl _

/-- An evaluation that is not cut short has no more rounds for being allowed more. -/
theorem widen_outlasts (s : SpecId) (key : SpecKey) (rounds : Nat) : ∀ {rounds' : Nat},
    rounds ≤ rounds' →
    Outlasts (widen { ctx with limits } visit' s key rounds') (widen ctx visit s key rounds) := by
  induction rounds with
  | zero =>
    intro _ _ σ r σ' h hr
    cases h
    exact absurd ⟨_, _, rfl⟩ hr
  | succ rounds ih =>
    intro rounds' hle
    obtain ⟨rounds', rfl⟩ : ∃ k, rounds' = k + 1 := ⟨rounds' - 1, by omega⟩
    simp only [widen]
    refine .bind (.refl _) fun _ => .bind (evaluate_outlasts hv hl key) fun p =>
      .bind (.refl _) fun provisional => .bind (.refl _) fun widened => .bind (.refl _) fun _ => ?_
    split
    · exact .refl _
    · refine .bind (.refl _) fun _ => .bind (.refl _) fun _ => .bind (.refl _) fun i => ?_
      split
      · exact .refl _
      · exact ih (by omega)

end

theorem visitWith_outlasts {run run' : SpecId → SpecKey → Infer TypeId}
    (hrun : ∀ s key, Outlasts (run' s key) (run s key)) (s : SpecId) :
    Outlasts (visitWith run' s) (visitWith run s) := by
  unfold visitWith
  refine .bind (.refl _) fun i => ?_
  split
  · exact .refl _
  · split
    · exact .refl _
    · exact .refl _
    · refine .bind (.refl _) fun σ => ?_
      dsimp only
      split
      · exact .refl _
      · exact .bind (.refl _) fun _ => .attempt (hrun s _) (fun _ => .refl _) fun e _ => ⟨_, rfl⟩

theorem visit_outlasts (hl : ctx.limits.loopRounds ≤ limits.loopRounds)
    (hw : ctx.limits.wideningRounds ≤ limits.wideningRounds) (depth : Nat) : ∀ s,
    Outlasts (Infer.visit { ctx with limits } depth s) (Infer.visit ctx depth s) := by
  induction depth with
  | zero => exact fun _ => .refl _
  | succ depth ih => exact visitWith_outlasts fun s key => widen_outlasts ih hl s key _ hw

end Infer

end

/-! ## The top level and the passes -/

namespace Inference

variable {ctx : Context} {limits : Limits} {σ σ' : State}

/-- No error is that a limit was reached. -/
def Uncut (es : List TypeError) : Prop := ∀ e ∈ es, ¬ e.IsDivergence

/-- The error of a failed statement is reported with the errors before it. -/
theorem mem_inferStatements {visit : SpecId → Infer TypeId} {ts : List Term} :
    ∀ {errors errors' : List TypeError} {last a : TypeId} {s s' : State × Scope},
      inferStatements ctx visit errors last ts s = some ((errors', a), s') →
      ∀ e ∈ errors, e ∈ errors' := by
  induction ts with
  | nil =>
    intro errors errors' last a s s' h e he
    cases h
    exact he
  | cons t ts ih =>
    intro errors errors' last a s s' h e he
    obtain ⟨⟨r, s₁⟩, -, h⟩ := Option.bind_eq_some_iff.1 h
    cases r with
    | ok b => exact ih h e he
    | error e' => exact ih h e (List.mem_append_left _ he)

theorem inferStatements_uncut {visit visit' : SpecId → Infer TypeId}
    (hv : ∀ s, Outlasts (visit' s) (visit s)) (hl : ctx.limits.loopRounds ≤ limits.loopRounds)
    {ts : List Term} :
    ∀ {errors errors' : List TypeError} {last a : TypeId} {s s' : State × Scope},
      inferStatements ctx visit errors last ts s = some ((errors', a), s') → Uncut errors' →
      inferStatements { ctx with limits } visit' errors last ts s = some ((errors', a), s') := by
  induction ts with
  | nil => exact fun h _ => h
  | cons t ts ih =>
    intro errors errors' last a s s' h hu
    obtain ⟨⟨r, s₁⟩, ht, h⟩ := Option.bind_eq_some_iff.1 h
    refine Option.bind_eq_some_iff.2 ⟨(r, s₁), InferIn.inferTerm_outlasts hv hl t s r s₁ ht ?_, ?_⟩
    · cases r with
      | ok b => exact id
      | error e => exact hu e (mem_inferStatements h e (by simp))
    · cases r with
      | ok b => exact ih h hu
      | error e => exact ih h hu

theorem inferTop_uncut (hl : ctx.limits.loopRounds ≤ limits.loopRounds)
    (hw : ctx.limits.wideningRounds ≤ limits.wideningRounds) {top : TopResult}
    (h : inferTop ctx σ = some (top, σ')) (hu : Uncut top.errors) :
    inferTop { ctx with limits } σ = some (top, σ') := by
  obtain ⟨⟨⟨errors, last⟩, s⟩, hs, h⟩ := Option.bind_eq_some_iff.1 h
  cases h
  exact Option.bind_eq_some_iff.2
    ⟨_, inferStatements_uncut (Infer.visit_outlasts hl hw _) hl hs hu, rfl⟩

theorem runPass_uncut (hl : ctx.limits.loopRounds ≤ limits.loopRounds)
    (hw : ctx.limits.wideningRounds ≤ limits.wideningRounds) {r r' : Passes}
    (h : runPass ctx r σ = some (r', σ')) (hu : Uncut r'.errors) :
    runPass { ctx with limits } r σ = some (r', σ') ∧ Uncut r.errors := by
  obtain ⟨⟨top, σ₁⟩, ht, h⟩ := Option.bind_eq_some_iff.1 h
  cases h
  exact ⟨Option.bind_eq_some_iff.2 ⟨_, inferTop_uncut hl hw ht fun e he =>
    hu e (World.mem_addErrors.2 (.inr he)), rfl⟩, fun e he => hu e (World.mem_addErrors.2 (.inl he))⟩

/-- Passes that end because the last one has changed nothing are not continued if more of them are
allowed. -/
theorem runPasses_uncut (hl : ctx.limits.loopRounds ≤ limits.loopRounds)
    (hw : ctx.limits.wideningRounds ≤ limits.wideningRounds) {r' : Passes}
    (hc : r'.converged = true) (hu : Uncut r'.errors) (left : Nat) :
    ∀ {left' : Nat} {r : Passes} {σ : State}, left ≤ left' → r.converged = false →
      runPasses ctx left r σ = some (r', σ') →
      runPasses { ctx with limits } left' r σ = some (r', σ') ∧ Uncut r.errors := by
  induction left with
  | zero =>
    intro left' r σ _ hr h
    cases h
    simp [hr] at hc
  | succ left ih =>
    intro left' r σ hle _ h
    obtain ⟨left', rfl⟩ : ∃ k, left' = k + 1 := ⟨left' - 1, by omega⟩
    obtain ⟨⟨r₁, σ₁⟩, hp, h⟩ := Option.bind_eq_some_iff.1 h
    have hrest : (if r₁.converged then pure r₁ else
        runPasses { ctx with limits } left' r₁ : Run Passes) σ₁ = some (r', σ') ∧
        Uncut r₁.errors := by
      dsimp only at h
      split at h
      · rename_i h₁
        cases h
        exact ⟨by rw [if_pos h₁]; rfl, hu⟩
      · rename_i h₁
        rw [if_neg h₁]
        exact ih (by omega) (by simpa using h₁) h
    obtain ⟨hp', hu'⟩ := runPass_uncut hl hw hp hrest.2
    exact ⟨Option.bind_eq_some_iff.2 ⟨_, hp', hrest.1⟩, hu'⟩

end Inference

/-! ## Checking -/

/-- Inference of a registered source decides what checking it gives. -/
theorem check_of_infer {names : NameTable} {source : Source} {limits : Limits}
    {es : List TypeError} {ctx : Context} {σ σ' : State} {passes : Passes} {top : TopResult}
    (hreg : register names source limits = (es, ctx, σ))
    (hinfer : infer ctx σ = some ((passes, top), σ')) :
    check names source limits = some (.of es ctx passes top σ') := by
  unfold check
  simp only [hreg, hinfer]
  rfl

/-- Whatever the limits, checking ends, and if no limit was reached anywhere (neither in a pass nor
by the number of passes nor in the last typing of the top level), then larger limits change nothing:
inference finds the same in as many passes and ends in the same state, and checking gives the same
errors and the same program. -/
theorem check_limits (names : NameTable) (source : Source) (limits limits' : Limits)
    (hw : limits.wideningRounds ≤ limits'.wideningRounds) (hp : limits.passes ≤ limits'.passes)
    (hl : limits.loopRounds ≤ limits'.loopRounds) : ∃ passes top σ r,
    infer (register names source limits).2.1 (register names source limits).2.2 =
      some ((passes, top), σ) ∧ check names source limits = some r ∧
    (passes.converged = true → (∀ e ∈ passes.errors ++ top.errors, ¬ e.IsDivergence) →
      infer (register names source limits').2.1 (register names source limits').2.2 =
        some ((passes, top), σ) ∧ check names source limits' = some r) := by
  obtain ⟨es, ctx, σ, hreg⟩ := register_limits names source
  obtain ⟨hk, passes, top, σ₁, σ₂, hrun, htop, hcheck, -⟩ := check_eq (hreg limits)
  have hinfer := World.infer_eq (W := hk.world Infer.storedType) hrun htop
  refine ⟨passes, top, World.frozen σ₂, _, by rw [hreg]; exact hinfer, hcheck, fun hc hu => ?_⟩
  have hu₁ : Uncut passes.errors := fun e he => hu e (List.mem_append_left _ he)
  have hu₂ : Uncut top.errors := fun e he => hu e (List.mem_append_right _ he)
  have hl' : ({ ctx with limits } : Context).limits.loopRounds ≤ limits'.loopRounds := hl
  have hw' : ({ ctx with limits } : Context).limits.wideningRounds ≤ limits'.wideningRounds := hw
  have hrun' := (runPasses_uncut hl' hw' hc hu₁ _ hp rfl hrun).1
  have htop' := inferTop_uncut hl' hw' htop hu₂
  obtain ⟨hk', -⟩ := check_eq (hreg limits')
  have hinfer' := World.infer_eq (W := hk'.world Infer.storedType) hrun' htop'
  refine ⟨by rw [hreg]; exact hinfer', ?_⟩
  -- The limits are read once more only to report that the passes did not converge.
  rw [check_of_infer (hreg limits') hinfer']
  simp only [CheckResult.of, Passes.report, if_pos hc]

/-- In a loop, the top level assigns to `x` what a function returns that calls itself. -/
def recursionInLoop : Builder := ((do
  Build.function "foo" [] (← Build.cond (← Build.bool true) (← Build.int 1)
    (some (← Build.call none "foo" [])))
  Build.stmt (← Build.loop (← Build.bool true)
    (← Build.assign "x" (← Build.call none "foo" []))) : Build Unit).run {}).2

theorem check_limits_recursionInLoop : ∃ limits limits' r, limits ≠ limits' ∧
    check recursionInLoop.names recursionInLoop.source limits = some r ∧ r.errors = [] ∧
    check recursionInLoop.names recursionInLoop.source limits' = some r := by
  obtain ⟨passes, top, σ, r, hinfer, hr, hlarger⟩ :=
    check_limits recursionInLoop.names recursionInLoop.source ⟨2, 2, 2⟩ ⟨3, 2, 64⟩ (by decide)
      (by decide) (by decide)
  obtain ⟨p, hp, hc, he⟩ : ∃ p ∈ infer
      (register recursionInLoop.names recursionInLoop.source ⟨2, 2, 2⟩).2.1
      (register recursionInLoop.names recursionInLoop.source ⟨2, 2, 2⟩).2.2,
      p.1.1.converged = true ∧ p.1.1.errors ++ p.1.2.errors = [] := by decide +kernel
  cases hinfer.symm.trans hp
  have herrors : ∃ r ∈ check recursionInLoop.names recursionInLoop.source ⟨2, 2, 2⟩,
      r.errors = [] := by decide +kernel
  obtain ⟨r', hr', hnone⟩ := herrors
  cases hr.symm.trans hr'
  exact ⟨_, _, r, by decide, hr, hnone, (hlarger hc (by simp [he])).2⟩

end Multimethod
