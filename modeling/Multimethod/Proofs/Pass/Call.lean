import Multimethod.Proofs.Pass.Local

/-!
# Calls of an earlier pass

In an earlier pass receiver and arguments have no more members, so the call has no combinations that
the last pass does not have. For each of them the last pass has a row (`World.Answered`), and since
a row leads where resolution leads, resolution cannot fail in the earlier pass, and leads to the
same callee. What that answers there is within what it answers in the end.
-/

namespace Multimethod

open Inference TypeTable InferIn

namespace Inference

/-- The specialization has been evaluated in the pass in which the state `τ` was reached. -/
def Done (τ : State) (s : SpecId) : Prop :=
  ∃ i, τ.specs.get? s = some i ∧ i.stage = .idle ∧ i.donePass = some τ.pass

end Inference

namespace World

variable {W : World} {τ σ₀ σ σ₁ σ' : State} {S S₁ S' U : Scope} {K : Prop}
  {visit : SpecId → Infer TypeId} {k : Name} {r : Option TypeId} {c args : List TypeId}
  {callee : Callee} {a b : TypeId}

theorem Extends.below (h : W.Extends σ σ') (hg : σ'.Grows τ) : σ.Grows τ := h.toGrows.trans hg

/-- Visits from `σ₀` on are safe, and one of a specialization that the last pass has evaluated can
only end in the error that a limit was reached. -/
structure Answering (W : World) (τ σ₀ : State) (visit : SpecId → Infer TypeId) : Prop where
  safe : W.Visits σ₀ visit
  error : ∀ σ s e σ', W.Ok σ → W.Extends σ₀ σ → (∃ i, σ.specs.get? s = some i) →
    visit s σ = some (.error e, σ') → σ'.Grows τ → Done τ s → e.IsDivergence

theorem Answering.completes (hv : W.Answering τ σ₀ visit) (h : W.Ok σ) (h₀ : W.Extends σ₀ σ)
    {s : SpecId} {i : Specialization} (hi : σ.specs.get? s = some i)
    {P : Except TypeError TypeId → State → Prop}
    (hok : ∀ a σ', W.Ok σ' → W.Extends σ σ' → σ'.types.Values W.classes a →
      σ'.returnType s = a → P (.ok a) σ')
    (herr : ∀ e σ', W.Extends σ σ' → (σ'.Grows τ → Done τ s → e.IsDivergence) →
      P (.error e) σ') : W.Completes σ (visit s) P := by
  obtain ⟨r, σ', hx, h', he, hr⟩ := hv.safe σ s h h₀ ⟨i, hi⟩
  refine ⟨r, σ', hx, h', he, ?_⟩
  cases r with
  | ok a => exact hok a σ' h' he hr.1.1 hr.1.2.2
  | error e => exact herr e σ' he (hv.error σ s e σ' h h₀ ⟨i, hi⟩ hx)

/-- The call `k` has a callee for a receiver and arguments in the last pass, which has evaluated it
and found an answer that is a part of `a`. -/
def Answered (W : World) (τ : State) (k : Name) (r : Option TypeId) (c : List TypeId)
    (a : TypeId) : Prop :=
  ∃ callee, W.registry.Leads τ.types τ.specs k r c callee ∧ Reached τ callee ∧
    ∃ b, Answers τ callee b ∧ τ.types.Inside b a

/-- What a callee answers grows. -/
theorem Answers.within (h : Answers σ callee b) (hb : σ.types.Has b) (hg : σ.Grows τ) {b' : TypeId}
    (hb' : τ.types.Has b') (h' : Answers τ callee b') : τ.types.Within b b' := by
  cases callee with
  | specialization s =>
    obtain ⟨i, hi, rfl⟩ := h
    obtain ⟨j, hj, rfl⟩ := h'
    obtain ⟨j', hj', -, hin⟩ := hg.specs s i hi
    cases hj.symm.trans hj'
    exact hin.2.2
  | allocate c | new c i =>
    have hs := (hb.shape_eq hg.types).trans h
    rw [(hb.mono hg.types).shape_inj hb' (hs.trans (show τ.types.shape b' = _ from h').symm)]
    exact .refl

namespace Answered

variable (ha : W.Answered τ k r c a) (H : τ.types.WF)
include ha H

theorem not_misses : ¬ W.registry.Misses τ.types k r c := by
  obtain ⟨callee, hl, -⟩ := ha
  cases callee with
  | specialization s => exact hl.choose_spec.1.not_misses H
  | allocate c => exact Registry.Picks.not_misses H hl
  | new c i => exact hl.1.not_misses H

variable (hσ : σ.types.WF) (hl : W.registry.Leads σ.types σ.specs k r c callee) (hg : σ.Grows τ)
include hσ hl hg

/-- Where a call leads in an earlier pass, it leads in the last one. -/
theorem leads : W.registry.Leads τ.types τ.specs k r c callee ∧ Reached τ callee ∧
    ∃ b, Answers τ callee b ∧ τ.types.Inside b a := by
  obtain ⟨callee', hl', h⟩ := ha
  cases (hl.mono hσ hg.types hg.keeps).unique H hl'
  exact ⟨hl', h⟩

theorem within (hans : Answers σ callee b) (hb : σ.types.Has b) : τ.types.Within b a := by
  obtain ⟨-, -, b', hans', hin⟩ := ha.leads H hσ hl hg
  exact (hans.within hb hg hin.1 hans').trans hin.2.2

end Answered

/-- Fewer members have no other combinations. -/
theorem combinations_within {t : TypeTable} {receiver receiver' : Option TypeId}
    {as bs : List TypeId} (hr : receiver' = receiver ∨
      ∃ b b', receiver' = some b' ∧ receiver = some b ∧ t.Within b' b)
    (h : List.Forall₂ (fun b a => b ≠ .never ∧ t.Within b a) bs as)
    {p : Option TypeId × List TypeId} (hp : p ∈ Registry.combinations t receiver' bs) :
    p ∈ Registry.combinations t receiver as := by
  obtain ⟨r, c⟩ := p
  rw [Registry.mem_combinations] at hp ⊢
  refine ⟨?_, hp.2.trans_of h fun m _ _ hm hw => hw.2 m hm⟩
  rcases hr with rfl | ⟨b, b', rfl, rfl, hw⟩
  · exact hp.1
  · obtain ⟨m, hm, hmr⟩ := List.mem_map.1 hp.1
    exact List.mem_map.2 ⟨m, hw m hm, hmr⟩

/-- A call that the last pass has typed is answered for all combinations. -/
theorem Calls.answered {e : ExprId} {receiver : Option TypeId}
    (h : W.Calls τ U e k receiver args a) (hreach : ReachedBy τ U.body)
    {p : Option TypeId × List TypeId} (hp : p ∈ Registry.combinations τ.types receiver args) :
    W.Answered τ k p.1 p.2 a := by
  obtain ⟨callee, hf, hl, hb⟩ := h p.1 p.2 hp
  exact ⟨callee, hl, hreach e p.1 p.2 callee hf, hb⟩

theorem AllIdle.done (hidle : AllIdle τ) {s : SpecId}
    (h : Reached τ (.specialization s)) : Done τ s := by
  obtain ⟨i, hi, hr⟩ := h
  exact ⟨i, hi, hidle s i hi, hr.resolve_left fun hne => hne (hidle s i hi)⟩

/-- What comes of an entry of a resolution: the callee that the call has, and an answer of it. -/
def Entering (W : World) (τ : State) (k : Name) (r : Option TypeId) (c : List TypeId) :
    Except TypeError (Callee × TypeId) → State → Prop
  | .ok (callee, b), σ' => W.registry.Leads σ'.types σ'.specs k r c callee ∧
      σ'.types.Values W.classes b ∧ Answers σ' callee b
  | .error e, σ' => σ'.Grows τ → e.IsDivergence

section
variable (hv : W.Answering τ σ₀ visit) (hτ : W.Ok τ) (hidle : AllIdle τ) (h : W.Ok σ)
  (h₀ : W.Extends σ₀ σ) (span : Span)
include hv h h₀

/-- Looking for the initializer of an object of type `o`, and visiting it. -/
theorem initialize_completes (hargs : ∀ a ∈ args, (σ.types.shape a).IsValue W.classes)
    {o : TypeId} {d : ClassId} (hd : d.index < W.classes) (ho : σ.types.shape o = .exact d)
    {P : Except TypeError (Option SpecId) → State → Prop}
    (hmiss : ∀ e σ', W.Extends σ σ' →
      W.registry.Misses σ'.types W.ctx.core.initializer (some o) args → P (.error e) σ')
    (herr : ∀ m s e σ' σ'', W.Ok σ' → W.Extends σ σ' → W.Extends σ' σ'' →
      W.registry.Picks σ'.types W.ctx.core.initializer (some o) args (.method m) →
      σ'.specs.find? ⟨m, some o, args⟩ = some s →
      (σ''.Grows τ → Done τ s → e.IsDivergence) → P (.error e) σ'')
    (hok : ∀ m s σ', W.Extends σ σ' →
      W.registry.Picks σ'.types W.ctx.core.initializer (some o) args (.method m) →
      σ'.specs.find? ⟨m, some o, args⟩ = some s → P (.ok (some s)) σ') :
    W.Completes σ (do
      let resolution ← Infer.resolving
        (W.registry.resolve W.ctx.core.initializer (some o) args span)
      Infer.visitInitializers visit o args none resolution.methods) P := by
  have hobj : (σ.types.shape o).IsValue W.classes := by rw [ho]; exact hd
  have hhas : σ.types.Has o := (Values.of_shape hobj).1
  have hsplit : ∀ a ∈ some o, Registry.Splits σ.types a := fun a ha => by
    cases ha; exact splits_of_shape hobj
  have hcomb := Registry.combinations_of_isMember (t := σ.types)
    (fun a (ha : a ∈ some o) => by cases ha; exact hobj.isMember) fun a ha => (hargs a ha).isMember
  refine (Completes.resolving (P := EndsIn
      (fun es σ' => W.registry.Resolves σ'.types W.ctx.core.initializer [(some o, args)] es)
      fun _ σ' => W.registry.Misses σ'.types W.ctx.core.initializer (some o) args) h
    (Registry.resolve_settles h.types h.described W.ctx.core.initializer span hsplit
      fun a ha => splits_of_shape (hargs a ha))
    (fun es σ' _ _ hes => by rwa [hcomb] at hes) fun e σ' _ _ he => ?_).bind
      (fun es σ₁ h₁ he₁ hes => ?_) fun e σ' _ he hm => hmiss e σ' he hm
  · obtain ⟨⟨c, hc, hm⟩, -⟩ := he
    rw [hcomb, List.mem_singleton] at hc
    subst hc
    exact hm
  · obtain ⟨m, hm, hkey, hpick⟩ := resolves_initializer hd ((hhas.shape_eq he₁.types).trans ho)
      (values_mono he₁.types hargs) hes
    rw [hm]
    simp only [Infer.visitInitializers]
    refine .bind_safe (specialize_safe h₁ hkey) (fun _ _ h => ⟨_, by cases h; rfl⟩)
      fun s σ₂ h₂ he₂ hf => ?_
    obtain ⟨i, hi, -⟩ := Specializations.find?_eq_some.1 hf
    have he₁₂ := he₁.trans he₂
    have hpick₂ := hpick.mono he₂.types
    refine (hv.completes (P := EndsIn (fun _ _ => True)
        fun e σ' => W.Extends σ₂ σ' ∧ (σ'.Grows τ → Done τ s → e.IsDivergence)) h₂
      (h₀.trans he₁₂) hi (fun _ _ _ _ _ _ => trivial) fun e σ' he hd => ⟨he, hd⟩).bind
      (fun _ σ₃ h₃ he₃ _ => .pure h₃ ?_) fun e σ' _ _ hfails => ?_
    · exact hok m s σ₃ (he₁₂.trans he₃) (hpick₂.mono he₃.types) (he₃.keeps _ _ hf)
    · exact herr m s e σ₂ σ' h₂ he₁₂ hfails.1 hpick₂ hf hfails.2

/-- Making an object. -/
theorem inferCreation_stays (hτ : W.Ok τ) (hidle : AllIdle τ)
    (hargs : ∀ a ∈ args, (σ.types.shape a).IsValue W.classes) {d : ClassId}
    (hd : d.index < W.classes) (hp : W.registry.Picks σ.types k r args (.new d))
    (hJ : σ.Grows τ → W.Answered τ k r args a) :
    W.Completes σ (Infer.inferCreation W.ctx visit d args span) (W.Entering τ k r args) := by
  refine .bind_safe (Safe.onTypes h (exact_settles h.types d)) (fun _ _ h => ⟨_, by cases h; rfl⟩)
    fun o σ₁ h₁ he₁ ⟨ho, _⟩ => ?_
  have hval : σ₁.types.Values W.classes o := Values.of_shape (by rw [ho.2]; exact hd)
  set defined := W.ctx.methods.understands W.tree σ₁.types W.ctx.core.initializer o with hdef
  refine .congr (creating_eq span h₁.tree d hdef.symm) ?_
  unfold creating
  split
  · rename_i hnone
    simp only [Bool.and_eq_true, Bool.not_eq_true', List.isEmpty_iff] at hnone
    exact .pure h₁ ⟨⟨hp.mono he₁.types, o, ho.2, hnone.2, hnone.1⟩, hval, ho.2⟩
  · rename_i hnone
    have hsome : args ≠ [] ∨ defined = true := by
      cases hd : defined with
      | true => exact .inr rfl
      | false => exact .inl (by simpa [hd] using hnone)
    have leads {m : MethodId} {s : SpecId} {σ' : State} (he : W.Extends σ₁ σ')
        (hpick : W.registry.Picks σ'.types W.ctx.core.initializer (some o) args (.method m))
        (hf : σ'.specs.find? ⟨m, some o, args⟩ = some s) :
        W.registry.Leads σ'.types σ'.specs k r args (.new d (some s)) :=
      ⟨hp.mono (le_trans he₁.types he.types), o, (ho.1.shape_eq he.types).trans ho.2,
        hsome.imp_right fun hd =>
          (W.ctx.methods.understands_mono W.tree h₁.types hval.1 he.types _).trans hd, m, hpick, hf⟩
    rw [← bind_assoc]
    refine (initialize_completes hv h₁ (h₀.trans he₁) span (values_mono he₁.types hargs) hd ho.2
      (P := fun r' σ' => match r' with
        | .ok i => ∃ s, i = some s ∧ W.registry.Leads σ'.types σ'.specs k r args (.new d i)
        | .error e => σ'.Grows τ → e.IsDivergence) (fun e σ' he hm hg => ?_)
      (fun m s e σ' σ'' h' he he' hpick hf hdiv hg => ?_)
      fun m s σ' he hpick hf => ⟨s, rfl, leads he hpick hf⟩).bind
      (fun i σ₂ h₂ he₂ ⟨s, his, hl⟩ => ?_) fun _ _ _ _ he => he
    · -- The last pass has found an initializer, or needs none.
      have hg₁ := he.below hg
      obtain ⟨callee, hl, -⟩ := hJ (he₁.below hg₁)
      have hpτ := hp.mono (he₁.below hg₁).types
      cases callee with
      | specialization s => cases hpτ.unique hτ.types hl.choose_spec.1
      | allocate c => cases hpτ.unique hτ.types hl
      | new c i =>
        obtain ⟨hp', o', ho', hi⟩ := hl
        cases hpτ.unique hτ.types hp'
        have hoo : o = o' := (ho.1.mono hg₁.types).shape_inj (has_of_shape (by simp [ho']))
          (((ho.1.shape_eq hg₁.types).trans ho.2).trans ho'.symm)
        subst hoo
        cases i with
        | none =>
          rcases hsome with hne | hd
          · exact absurd hi.1 hne
          · have := (W.ctx.methods.understands_mono W.tree h₁.types hval.1 hg₁.types _).trans hd
            exact absurd (this.symm.trans hi.2) (by simp)
        | some s =>
          obtain ⟨-, m, hpick, -⟩ := hi
          exact absurd (hm.mono hg.types) (hpick.not_misses hτ.types)
    · have hg' := he'.below hg
      have hl := leads he hpick hf
      have hr := ((hJ (he₁.below (he.below hg'))).leads hτ.types h'.types hl hg').2.1
      exact hdiv hg (hidle.done hr)
    · subst his
      exact .pure h₂ ⟨hl, hval.mono h₁.types he₂.types, (ho.1.shape_eq he₂.types).trans ho.2⟩

/-- Typing an entry of a resolution. -/
theorem inferEntry_stays (hτ : W.Ok τ) (hidle : AllIdle τ) {e : ResolutionEntry}
    (hargs : ∀ a ∈ args, (σ.types.shape a).IsValue W.classes)
    (hr : ∀ a ∈ r, (σ.types.shape a).IsValue W.classes) (he : W.registry.Enters k r args e σ.types)
    (hJ : σ.Grows τ → W.Answered τ k r args a) :
    W.Completes σ (Infer.inferEntry W.ctx visit span e) (W.Entering τ k r args) := by
  obtain ⟨r, c, target⟩ := e
  obtain ⟨rfl, rfl, hpick, -⟩ := id he
  cases target with
  | method m =>
    refine .bind_safe (specialize_safe h (keyOk_of_enters hargs hr he rfl))
      (fun _ _ h => ⟨_, by cases h; rfl⟩) fun s σ₁ h₁ he₁ hf => ?_
    obtain ⟨i, hi, -⟩ := Specializations.find?_eq_some.1 hf
    have leads {σ' : State} (he : W.Extends σ₁ σ') :
        W.registry.Leads σ'.types σ'.specs k r c (.specialization s) :=
      ⟨m, hpick.mono (le_trans he₁.types he.types), he.keeps _ _ hf⟩
    refine (hv.completes (P := EndsIn (fun b => W.Entering τ k r c (.ok (.specialization s, b)))
        fun e σ' => σ'.Grows τ → e.IsDivergence) h₁ (h₀.trans he₁) hi
      (fun b σ' _ he' hbv hret => ⟨leads he', hbv, ?_⟩) fun e σ' he' hdiv hg => ?_).bind
      (fun b σ₂ h₂ _ hb => .pure h₂ hb) fun _ _ _ _ he => he
    · obtain ⟨j, hj, -⟩ := he'.specs s i hi
      exact ⟨j, hj, by rw [← hret, State.returnType, hj]; rfl⟩
    · have hg₁ := he'.below hg
      have hr := ((hJ (he₁.below hg₁)).leads hτ.types h₁.types (leads (.refl h₁)) hg₁).2.1
      exact hdiv hg (hidle.done hr)
  | allocate d =>
    refine .bind_safe (Safe.onTypes h (exact_settles h.types d)) (fun _ _ h => ⟨_, by cases h; rfl⟩)
      fun o σ₁ h₁ he₁ hexact => ?_
    obtain ⟨ho, -⟩ := hexact
    have hval : σ₁.types.Values W.classes o :=
      .of_shape (by rw [ho.2]; exact class_lt_of_enters hr he (.inl rfl))
    exact .pure h₁ ⟨hpick.mono he₁.types, hval, ho.2⟩
  | new d =>
    exact inferCreation_stays hv h h₀ span hτ hidle hargs (class_lt_of_enters hr he (.inr rfl))
      hpick hJ

end

/-- What typing a call gives: a type within `a`. -/
def Calling (W : World) (τ : State) (a : TypeId) :
    Except TypeError (TypeId × DispatchTable) → State → Prop
  | .ok (b, _), σ' => σ'.types.Values W.classes b ∧ (σ'.Grows τ → τ.types.Within b a)
  | .error e, σ' => σ'.Grows τ → e.IsDivergence

section
variable (hv : W.Answering τ σ₀ visit) (hτ : W.Ok τ) (hidle : AllIdle τ) (span : Span)
include hv hτ hidle

/-- Typing the entries of a resolution, one after the other. -/
theorem inferEntries_stays {cs : List (Option TypeId × List TypeId)} {es : Resolution}
    (table : DispatchTable) (h : W.Ok σ) (h₀ : W.Extends σ₀ σ)
    (hcs : ∀ c ∈ cs, (∀ r ∈ c.1, (σ.types.shape r).IsValue W.classes) ∧
      ∀ b ∈ c.2, (σ.types.shape b).IsValue W.classes)
    (hes : W.registry.Resolves σ.types k cs es) (hb : σ.types.Values W.classes b)
    (hJ : σ.Grows τ → τ.types.Within b a ∧ ∀ c ∈ cs, W.Answered τ k c.1 c.2 a) :
    W.Completes σ (Infer.inferEntries W.ctx visit span b table es) (W.Calling τ a) := by
  induction es generalizing σ cs b table with
  | nil =>
    cases hes
    exact .pure h ⟨hb, fun hg => (hJ hg).1⟩
  | cons e es ih =>
    obtain ⟨⟨r, c⟩, cs, rfl, he, hes⟩ : ∃ c cs', cs = c :: cs' ∧
        W.registry.Enters k c.1 c.2 e σ.types ∧ W.registry.Resolves σ.types k cs' es := by
      cases hes with
      | cons he hes => exact ⟨_, _, rfl, he, hes⟩
    obtain ⟨hr, hc⟩ := hcs _ (.head _)
    simp only [Infer.inferEntries]
    have hans (hg : σ.Grows τ) := (hJ hg).2 (r, c) (.head _)
    refine (inferEntry_stays hv h h₀ span hτ hidle hc hr he hans).bind
      (fun p σ₁ h₁ he₁ hentering => ?_) fun _ _ _ _ he => he
    obtain ⟨callee, b'⟩ := p
    obtain ⟨hl, hbv, hb'⟩ := hentering
    refine .bind_safe (Safe.onTypes h₁ (union_joins h₁.types (hb.1.mono he₁.types) hbv.1))
      (fun _ _ h => ⟨_, by cases h; rfl⟩) fun d σ₂ h₂ he₂ hjoins => ?_
    obtain ⟨hd, -⟩ := hjoins
    have hle := le_trans he₁.types he₂.types
    refine ih (table.insert ⟨e.receiver, e.args, callee⟩) h₂ (h₀.trans (he₁.trans he₂))
      (fun c' hc' => ?_) (hes.mono hle) (.of_joins hd (hb.mono h.types hle)
        (hbv.mono h₁.types he₂.types)) fun hg => ⟨?_, fun c' hc' => ?_⟩
    · obtain ⟨hr', hc'⟩ := hcs _ (.tail _ hc')
      exact ⟨fun a ha => Values.isValue_mono hle (hr' a ha), values_mono hle hc'⟩
    · have hg₁ := he₂.below hg
      have hg₀ := he₁.below hg₁
      have hba := (hans hg₀).within hτ.types h₁.types hl hg₁ hb' hbv.1
      exact fun m hm => (((hd.mono hg.types).2.2.2 m).1 hm).elim ((hJ hg₀).1 m) (hba m)
    · exact (hJ (he₁.below (he₂.below hg))).2 c' (.tail _ hc')

/-- Typing a call all of whose combinations the last pass has answered. -/
theorem inferCall_stays (h : W.Ok σ) (h₀ : W.Extends σ₀ σ) {receiver : Option TypeId}
    {self : TypeId} (hr : ∀ a ∈ receiver, σ.types.Values W.classes a)
    (hs : σ.types.Values W.classes self) (ha : ∀ a ∈ args, σ.types.Values W.classes a)
    (hJ : σ.Grows τ → ∀ c ∈ Registry.combinations τ.types
      (W.effective τ.types receiver self k) args, W.Answered τ k c.1 c.2 a) :
    W.Completes σ (Infer.inferCall W.ctx visit receiver self k args span) (W.Calling τ a) := by
  have hcomb (hg : σ.Grows τ) : Registry.combinations τ.types
      (W.effective τ.types receiver self k) args =
        Registry.combinations σ.types (W.effective σ.types receiver self k) args := by
    rw [effective_mono hs h.types hg.types, Registry.combinations_mono hg.types
      (fun a h => (effective_values hr hs h).1) fun a h => (ha a h).1]
  have hval := fun c hc => combinations_values (W := W) (c := c)
    (fun a => effective_values hr hs (k := k) (a := a)) ha hc
  refine .congr (inferCall_eq h.tree visit receiver self k args span) ?_
  refine (Completes.resolving (P := fun r σ' => match r with
      | .ok es => W.registry.Resolves σ'.types k
          (Registry.combinations σ.types (W.effective σ.types receiver self k) args) es
      | .error e => σ'.Grows τ → e.IsDivergence) h
    (resolveCall_settles hr hs h.types h.described ha span) (fun _ _ _ _ hes => hes)
    fun e σ' _ he ⟨⟨c, hc, hm⟩, _⟩ hg => ?_).bind (fun es σ₁ h₁ he₁ hes => ?_)
    fun _ _ _ _ he => he
  · have hg₀ := he.below hg
    exact absurd (hm.mono hg.types)
      ((hJ hg₀ c (by rwa [hcomb hg₀])).not_misses hτ.types)
  · refine inferEntries_stays hv hτ hidle span .empty h₁ (h₀.trans he₁) (fun c hc => ?_) hes
      (.never h₁.types) fun hg => ⟨.never hτ.types, fun c hc => ?_⟩
    · exact ⟨fun a ha => Values.isValue_mono he₁.types ((hval c hc).1 a ha),
        values_mono he₁.types (hval c hc).2⟩
    · have hg₀ := he₁.below hg
      exact hJ hg₀ c (by rwa [hcomb hg₀])

end

end World

end Multimethod
