import Multimethod.Proofs.Order.Term

/-!
# Whole inferences

Visits of a specialization agree, however deep evaluations may be nested on either side, as long as
both sides end (`Mirror.visit_agree`). So two inferences that start from states that have found the
same run the same passes (`Mirror.runPasses_agree`) and make the same of the top level
(`Mirror.inferTop_agree`).
-/

namespace Multimethod.Mirror

open Inference TypeTable Ground

variable {M : Mirror} {visit visit' : SpecId → Infer TypeId} {σ τ σ' τ' : State}
  {p q : State × Scope} {m m' : Method} {key key' : SpecKey}

/-! ## Evaluations -/

section
variable (hv : M.VisitsAgree visit visit')
include hv

section
variable (hk : M.ground.SameKey M.ctx.methods M.methods key key')
include hk

theorem inferDefault_agree (h : M.scopes.pair p q)
    (hm : M.ground.SameMethod p.1.types q.1.types m m') (i : Nat) (pr : Param) :
    M.scopes.Agree p q (Infer.inferDefault M.ctx visit m key i pr)
      (Infer.inferDefault M.other visit' m' key' i pr) M.ground.Same := by
  unfold Infer.inferDefault
  cases pr.default with
  | none => exact .pure h (nil_same h)
  | some d =>
    refine (inferTerm_agree hv (M.ctx.term d) h).bind fun p₁ q₁ a b h₁ hab => ?_
    rw [hk.receiver]
    refine (tables_agree h₁.pair ((hm.mono h₁.left h₁.right).restriction_alike h₁.pair.1.twins
      hk.receiver_atom i)).bind fun p₂ q₂ r r' h₂ hr => ?_
    have hab := hab.mono h₂.left h₂.right
    cases hr with
    | none => exact .pure h₂.pair hab
    | some hr =>
      refine .get (.ite (Bool.eq_iff_iff.1 (h₂.pair.1.isSubtype_eq hab hr))
        (fun _ => .pure h₂.pair hab) fun _ => .throw h₂.pair ?_)
      rw [h₂.pair.1.typeText_eq hab, h₂.pair.1.typeText_eq hr, hm.definition]
      rfl

theorem bindParams_agree (ps : List Param) : ∀ {p q : State × Scope} (i : Nat),
    M.scopes.pair p q → M.ground.SameMethod p.1.types q.1.types m m' →
    M.scopes.Agree p q (Infer.bindParams M.ctx visit m key i ps)
      (Infer.bindParams M.other visit' m' key' i ps) fun _ _ _ _ => True := by
  induction ps with
  | nil => exact fun i h _ => .pure h trivial
  | cons pr ps ih =>
    intro p q i h hm
    have rest (p₁ q₁ : State × Scope) (a b : TypeId) (h₁ : M.scopes.After p q p₁ q₁)
        (hab : M.ground.Same p₁.1.types q₁.1.types a b) : M.scopes.Agree p₁ q₁
        (do
          InferIn.setLocal pr.name a
          Infer.bindParams M.ctx visit m key (i + 1) ps)
        (do
          InferIn.setLocal pr.name b
          Infer.bindParams M.other visit' m' key' (i + 1) ps) fun _ _ _ _ => True := by
      refine (setLocal_agree h₁.pair pr.name hab).bind fun p₂ q₂ _ _ h₂ _ => ?_
      have h₀₂ := h₁.trans h₂
      exact ih (i + 1) h₂.pair (hm.mono h₀₂.left h₀₂.right)
    simp only [Infer.bindParams, hk.args]
    cases hi : key.args[i]? with
    | some a =>
      have hatom := hk.args_atom a (List.mem_of_getElem? hi)
      exact States.Agree.bind (.pure h (Same.atom h.1.twins hatom)) rest
    | none => exact (inferDefault_agree hv hk h hm i pr).bind rest

theorem inferBody_agree (h : M.scopes.pair p q)
    (hm : M.ground.SameMethod p.1.types q.1.types m m') :
    M.scopes.Agree p q (Infer.inferBody M.ctx visit m key) (Infer.inferBody M.other visit' m' key')
      M.ground.Same := by
  unfold Infer.inferBody
  rw [← hm.definition]
  refine (bindParams_agree hv hk m.definition.params 0 h hm).bind fun p₁ q₁ _ _ h₁ _ => ?_
  refine (inferTerm_agree hv (M.ctx.term m.definition.body) h₁.pair).bind fun p₂ q₂ a b h₂ hab => ?_
  have hparams : List.Forall₂ (M.ground.Same p₂.1.types q₂.1.types)
      (m.definition.params.map fun pr => p₂.2.locals[pr.name]?.getD .nil)
      (m.definition.params.map fun pr => q₂.2.locals[pr.name]?.getD .nil) :=
    List.forall₂_map_left_iff.2 (List.forall₂_map_right_iff.2 (List.forall₂_same.2
      fun pr _ => (h₂.pair.2.locals pr.name).getD (nil_same h₂.pair)))
  refine (modifyScope_agree h₂.pair { h₂.pair.2 with
    body := { h₂.pair.2.body with paramTypes := hparams } }).bind fun p₃ q₃ _ _ h₃ _ => ?_
  exact scope_agree (join_agree h₃.pair (hab.mono h₃.left h₃.right) h₃.pair.2.returns)

/-- Evaluating a specialization once. -/
theorem evaluate_agree (h : M.Pair σ τ) :
    M.states.Agree σ τ (Infer.evaluate M.ctx visit key) (Infer.evaluate M.other visit' key')
      fun t u r r' => M.ground.Same t u r.1 r'.1 ∧ M.ground.SameBody t u r.2 r'.2 := by
  obtain ⟨n, hm⟩ := hk.method
  obtain ⟨md, md', hmd, hmd', -, hsame⟩ := h.paired.same hm
  have hget : M.other.methods.get? key'.method = some md' := hmd'
  unfold Infer.evaluate
  simp only [hmd, hget]
  refine .get ?_
  have hclass : key'.receiver.bind τ.types.instanceClass? =
      key.receiver.bind σ.types.instanceClass? := by
    rw [hk.receiver]
    refine Option.bind_congr fun a ha => ?_
    rw [TypeTable.instanceClass?, TypeTable.instanceClass?,
      h.twins.shape_eq (hk.receiver_atom a ha)]
  have hscope : M.ground.SameScope σ.types τ.types
      { self := key.receiver, selfClass := key.receiver.bind σ.types.instanceClass? }
      { self := key'.receiver, selfClass := key'.receiver.bind τ.types.instanceClass? } := by
    refine ⟨hk.receiver, hk.receiver_atom, hclass, fun c hc => ?_, .empty, .never h.twins, .empty⟩
    obtain ⟨a, ha, hac⟩ := Option.bind_eq_some_iff.1 hc
    have hatom := hk.receiver_atom a ha
    rw [TypeTable.instanceClass?, h.twins.shape_left hatom] at hac
    cases hs : M.ground.table.shape a with
    | exact d =>
      rw [hs] at hac
      cases hac
      exact hatom.lt (.inl hs)
    | below d => exact absurd hs (hatom.ne_below d)
    | _ =>
      rw [hs] at hac
      cases hac
  refine (within_agree (inferBody_agree hv hk (p := (σ, _)) (q := (τ, _)) ⟨h, hscope⟩ hsame)).bind
    fun σ₁ τ₁ r r' h₁ hr => ?_
  exact .pure h₁.pair ⟨hr.1, hr.2.body⟩

omit hv in
theorem divergence_agree (h : M.Pair σ τ) :
    M.states.Agree σ τ (Infer.divergence M.ctx key) (Infer.divergence M.other key')
      fun _ _ e e' => e = e' := by
  obtain ⟨n, hm⟩ := hk.method
  obtain ⟨md, md', hmd, hmd', -, hsame⟩ := h.paired.same hm
  have hget : M.other.methods.get? key'.method = some md' := hmd'
  refine .get (.pure h ?_)
  have hsignature : M.ctx.methods.signature σ.hierarchy σ.types M.ctx.names key.method =
      M.other.methods.signature τ.hierarchy τ.types M.other.names key'.method := by
    rw [← MethodTable.signature_tree, h.left_tree, ← MethodTable.signature_tree _ τ.hierarchy,
      h.right_tree]
    exact h.paired.signature h.twins M.ctx.names hm
  rw [hsignature, hmd, hget, Option.map_some, Option.map_some, hsame.definition]
  rfl

/-- Evaluating a specialization until its return type stays as it is. -/
theorem widen_agree (s : SpecId) (rounds : Nat) : ∀ {σ τ : State}, M.Pair σ τ →
    M.states.Agree σ τ (Infer.widen M.ctx visit s key rounds)
      (Infer.widen M.other visit' s key' rounds) M.ground.Same := by
  induction rounds with
  | zero =>
    intro σ τ h
    exact (divergence_agree hk h).bind fun σ₁ τ₁ e e' h₁ he => .throw h₁.pair he
  | succ rounds ih =>
    intro σ τ h
    simp only [Infer.widen]
    refine (modifySpec_agree h s fun i i' hi => by exact { hi with answers := rfl }).bind
      fun σ₁ τ₁ _ _ h₁ _ => ?_
    refine (evaluate_agree hv hk h₁.pair).bind fun σ₂ τ₂ r r' h₂ hr => ?_
    refine (storedType_agree h₂.pair s).bind fun σ₃ τ₃ a b h₃ hab => ?_
    refine (union_agree h₃.pair hab (hr.1.mono h₃.left h₃.right)).bind fun σ₄ τ₄ c d h₄ hcd => ?_
    have h₂₄ := h₃.trans h₄
    have hbody := hr.2.mono h₂₄.left h₂₄.right
    refine (modifySpec_agree h₄.pair s fun i i' hi => by exact { hi with body := hbody }).bind
      fun σ₅ τ₅ _ _ h₅ _ => ?_
    have hcd := hcd.mono h₅.left h₅.right
    have h₃₅ := h₄.trans h₅
    have hab := hab.mono h₃₅.left h₃₅.right
    refine .ite (hcd.eq_iff h₅.pair.twins hab) (fun _ => .pure h₅.pair hab) fun _ => ?_
    refine (modifySpec_agree h₅.pair s fun i i' hi => by exact { hi with returnType := hcd }).bind
      fun σ₆ τ₆ _ _ h₆ _ => ?_
    refine States.Agree.bind (R := fun _ _ _ _ => True) (.modified
      ⟨{ h₆.pair with changed := rfl }, le_refl _, le_refl _⟩) fun σ₇ τ₇ _ _ h₇ _ => ?_
    refine (spec?_agree h₇.pair s).bind fun σ₈ τ₈ i i' h₈ hi => ?_
    have hanswers : i.all (·.answers.isEmpty) = i'.all (·.answers.isEmpty) := by
      cases hi with
      | none => rfl
      | some hi => exact hi.answers.symm
    have h₅₈ := h₆.trans (h₇.trans h₈)
    exact .ite (by rw [hanswers]) (fun _ => .pure h₈.pair (hcd.mono h₅₈.left h₅₈.right))
      fun _ => ih h₈.pair

end

end

/-! ## Visits -/

/-- Answering a visit, with evaluations that agree. -/
theorem visitWith_agree {run run' : SpecId → SpecKey → Infer TypeId}
    (hrun : ∀ s {key key' : SpecKey} {σ τ : State},
      M.ground.SameKey M.ctx.methods M.methods key key' → M.Pair σ τ →
      M.states.Agree σ τ (run s key) (run' s key') M.ground.Same) :
    M.VisitsAgree (Infer.visitWith run) (Infer.visitWith run') := by
  intro s σ τ h
  unfold Infer.visitWith
  refine (spec?_agree h s).bind fun σ₁ τ₁ i i' h₁ hi => ?_
  cases hi with
  | none => exact .pure h₁.pair (.never h₁.pair.twins)
  | @some i i' hi =>
    dsimp only
    rw [hi.stage]
    cases i.stage with
    | running =>
      refine (modifySpec_agree h₁.pair s fun j j' hj => by exact { hj with answers := rfl }).bind
        fun σ₂ τ₂ _ _ h₂ _ => .pure h₂.pair (hi.returnType.mono h₂.left h₂.right)
    | frozen => exact .pure h₁.pair hi.returnType
    | idle =>
      have hdone : i.donePass = some σ₁.pass ↔ i'.donePass = some τ₁.pass := by
        rw [hi.donePass, h₁.pair.pass]
      refine .get ?_
      refine .ite hdone (fun _ => .pure h₁.pair hi.returnType) fun _ => ?_
      refine (modifySpec_agree h₁.pair s fun j j' hj => by exact { hj with stage := rfl }).bind
        fun σ₂ τ₂ _ _ h₂ _ => ?_
      refine (hrun s hi.key h₂.pair).attempt.bind fun σ₃ τ₃ r r' h₃ hr => ?_
      have hok : (if r'.isOk then some τ₁.pass else none) =
          if r.isOk then some σ₁.pass else none := by
        rw [h₁.pair.pass]
        match r, r' with
        | .ok a, .ok b => rfl
        | .error e, .error e' => rfl
      refine (modifySpec_agree h₃.pair s fun j j' hj => by exact { hj with
        stage := rfl, donePass := hok }).bind fun σ₄ τ₄ _ _ h₄ _ => .ended h₄.pair ?_
      match r, r' with
      | .ok a, .ok b => exact hr.mono h₄.left h₄.right
      | .error e, .error e' => exact hr

/-- Visits agree, as deep as evaluations may be nested on either side. -/
theorem visit_agree (depth depth' : Nat) :
    M.VisitsAgree (Infer.visit M.ctx depth) (Infer.visit M.other depth') := by
  induction depth generalizing depth' with
  | zero =>
    -- an evaluation that is nested too deep does not end
    cases depth' <;> simp only [Infer.visit] <;>
      refine visitWith_agree fun s key key' σ τ _ _ r σ' r' τ' hx _ => ?_ <;> cases hx
  | succ depth ih =>
    cases depth' with
    | zero =>
      simp only [Infer.visit]
      refine visitWith_agree fun s key key' σ τ _ _ r σ' r' τ' _ hy => ?_
      cases hy
    | succ depth' =>
      simp only [Infer.visit]
      exact visitWith_agree fun s key key' σ τ hk h => widen_agree (ih depth') hk s _ h

/-! ## The top level -/

/-- Top-level statements are typed alike, and the same ones fail. -/
theorem inferStatements_agree (hv : M.VisitsAgree visit visit') (ts : List Term) :
    ∀ {p q p' q' : State × Scope} {errors es es' : List TypeError} {a b c d : TypeId},
      M.scopes.pair p q → M.ground.Same p.1.types q.1.types a b →
      inferStatements M.ctx visit errors a ts p = some ((es, c), p') →
      inferStatements M.other visit' errors b ts q = some ((es', d), q') →
      M.scopes.After p q p' q' ∧ es' = es ∧ M.ground.Same p'.1.types q'.1.types c d := by
  induction ts with
  | nil =>
    rintro p q p' q' errors es es' a b c d h hab ⟨⟩ ⟨⟩
    exact ⟨.refl h, rfl, hab⟩
  | cons t ts ih =>
    intro p q p' q' errors es es' a b c d h _ hx hy
    obtain ⟨⟨r, p₁⟩, hx₁, hx⟩ := Option.bind_eq_some_iff.1 hx
    obtain ⟨⟨r', q₁⟩, hy₁, hy⟩ := Option.bind_eq_some_iff.1 hy
    obtain ⟨h₁, hr⟩ := inferTerm_agree hv t h r p₁ r' q₁ hx₁ hy₁
    have rest {errors : List TypeError} {a b : TypeId}
        (hab : M.ground.Same p₁.1.types q₁.1.types a b)
        (hx : inferStatements M.ctx visit errors a ts p₁ = some ((es, c), p'))
        (hy : inferStatements M.other visit' errors b ts q₁ = some ((es', d), q')) :
        M.scopes.After p q p' q' ∧ es' = es ∧ M.ground.Same p'.1.types q'.1.types c d := by
      obtain ⟨h₂, hrest⟩ := ih h₁.pair hab hx hy
      exact ⟨h₁.trans h₂, hrest⟩
    match r, r' with
    | .ok a, .ok b => exact rest hr hx hy
    | .error e, .error e' =>
      cases (show e = e' from hr)
      exact rest (never_same h₁.pair) hx hy

/-- The same was made of both top levels. -/
structure SameTop (M : Mirror) (t u : TypeTable) (r r' : TopResult) : Prop where
  body : M.ground.SameBody t u r.body r'.body
  type : M.ground.Same t u r.type r'.type
  errors : r'.errors = r.errors

theorem inferTop_agree (h : M.Pair σ τ) {r r' : TopResult}
    (hx : inferTop M.ctx σ = some (r, σ')) (hy : inferTop M.other τ = some (r', τ')) :
    M.Pair σ' τ' ∧ M.SameTop σ'.types τ'.types r r' := by
  obtain ⟨⟨⟨es, a⟩, σ₁, S⟩, hx₁, hx⟩ := Option.bind_eq_some_iff.1 hx
  obtain ⟨⟨⟨es', b⟩, τ₁, S'⟩, hy₁, hy⟩ := Option.bind_eq_some_iff.1 hy
  cases hx
  cases hy
  have hscope : M.ground.SameScope σ.types τ.types {} {} :=
    ⟨rfl, nofun, rfl, nofun, .empty, .never h.twins, .empty⟩
  obtain ⟨h₁, rfl, hab⟩ := inferStatements_agree (visit_agree _ _) M.ctx.main
    (p := (σ, {})) (q := (τ, {})) ⟨h, hscope⟩ (.nil h.twins) hx₁ hy₁
  have hunion := union_alike h₁.pair.1.twins hab h₁.pair.2.returns
  exact ⟨h₁.pair.1.grow hunion.twins hunion.left hunion.right,
    h₁.pair.2.body.mono hunion.left hunion.right, hunion.post, rfl⟩

/-! ## Passes -/

/-- The same passes were run, with the same errors. -/
structure SamePasses (r r' : Passes) : Prop where
  count : r'.count = r.count
  errors : r'.errors = r.errors
  converged : r'.converged = r.converged

theorem runPass_agree (h : M.Pair σ τ) {r r' s s' : Passes} (hr : SamePasses r r')
    (hx : runPass M.ctx r σ = some (s, σ')) (hy : runPass M.other r' τ = some (s', τ')) :
    M.Pair σ' τ' ∧ SamePasses s s' := by
  obtain ⟨⟨top, σ₁⟩, hx₁, hx⟩ := Option.bind_eq_some_iff.1 hx
  obtain ⟨⟨top', τ₁⟩, hy₁, hy⟩ := Option.bind_eq_some_iff.1 hy
  cases hx
  cases hy
  have hstart : M.Pair (World.passing σ r.count) (World.passing τ r'.count) :=
    { h with pass := hr.count, changed := rfl }
  obtain ⟨h₁, htop⟩ := inferTop_agree hstart hx₁ hy₁
  refine ⟨h₁, congrArg (· + 1) hr.count, ?_, congrArg (!·) h₁.changed⟩
  dsimp only
  rw [hr.errors, htop.errors]

theorem runPasses_agree (left : Nat) : ∀ {σ τ : State} {r r' s s' : Passes}, M.Pair σ τ →
    SamePasses r r' → runPasses M.ctx left r σ = some (s, σ') →
    runPasses M.other left r' τ = some (s', τ') → M.Pair σ' τ' ∧ SamePasses s s' := by
  induction left with
  | zero =>
    rintro σ τ r r' s s' h hr ⟨⟩ ⟨⟩
    exact ⟨h, hr⟩
  | succ left ih =>
    intro σ τ r r' s s' h hr hx hy
    obtain ⟨⟨r₁, σ₁⟩, hx₁, hx⟩ := Option.bind_eq_some_iff.1 hx
    obtain ⟨⟨r₁', τ₁⟩, hy₁, hy⟩ := Option.bind_eq_some_iff.1 hy
    obtain ⟨h₁, hr₁⟩ := runPass_agree h hr hx₁ hy₁
    dsimp only at hx hy
    rw [hr₁.converged] at hy
    split at hx
    · rename_i hc
      rw [if_pos hc] at hy
      cases hx
      cases hy
      exact ⟨h₁, hr₁⟩
    · rename_i hc
      rw [if_neg hc] at hy
      exact ih h₁ hr₁ hx hy

/-- Freezing does the same on both sides. -/
theorem Pair.frozen (h : M.Pair σ τ) : M.Pair (World.frozen σ) (World.frozen τ) :=
  { h with
    specs := fun s => by
      have hs := h.specs s
      simp only [World.frozen, Specializations.get?_freezeAll]
      generalize σ.specs.get? s = i, τ.specs.get? s = i' at hs ⊢
      cases hs with
      | none => exact .none
      | some hi => exact .some (hi.freeze h.twins) }

end Multimethod.Mirror
