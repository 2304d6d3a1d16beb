import Multimethod.Inference.Visit
import Multimethod.Proofs.Inference.Term

/-!
# Evaluating bodies is safe

Parameters are bound to arguments or to the types of their defaults, and then the body is typed.
What comes out of it is what the judgement says of the specialization (`World.evaluate_safe`).
-/

namespace Multimethod

open Inference TypeTable InferIn

/-- The restriction of a parameter, which is the same later. -/
theorem Method.restriction_settles {g : Registry} {t : TypeTable} (H : t.WF) (D : g.Described t)
    {mid : MethodId} {m : Method} (hm : g.methods.get? mid = some m) (i : Nat)
    {receiver : Option TypeId} (hr : ∀ a ∈ receiver, t.Has a) :
    Settles t (m.restriction i receiver) fun r u => (∀ a ∈ r, u.Has a) ∧
      ∀ v : TypeTable, v.WF → u ≤ v → (m.restriction i receiver v).1 = r := by
  have h := Registry.restriction_settles H D hr mid i
  simp only [Registry.restriction, hm] at h
  exact ⟨h.wf, h.le, ⟨h.post, fun v hv hle => by rw [h.again v hv hle]⟩, h.again⟩

namespace World

variable {W : World} {σ₀ σ σ' τ : State} {S S' U : Scope} {visit : SpecId → Infer TypeId}

section
variable (hv : W.Visits σ₀ visit) {key : SpecKey} {m : Method}
  (hm : W.ctx.methods.get? key.method = some m)
include hv hm

/-- A parameter that is left out has the type of its default, which fits its restriction. -/
theorem inferDefault_safe (h : W.At σ S) (h₀ : W.Extends σ₀ σ) (hk : W.KeyOk σ.types key)
    (i : Nat) (p : Param) :
    W.SafeIn σ S (Infer.inferDefault W.ctx visit m key i p)
      (Infer.inferDefault W.ctx W.answer m key i p)
      (W.Yields (fun τ U L a L' => match p.default with
        | none => a = .nil ∧ L' = L
        | some d => W.Typed τ U (W.ctx.term d) L a L' ∧ FitsRestriction W τ m key i a) S) := by
  unfold Infer.inferDefault
  cases hd : p.default with
  | none =>
    exact .pure h ⟨.nil h.ok.types W.five_le, h.scope.locals.refl, fun _ _ _ => ⟨rfl, rfl⟩⟩
  | some d =>
    refine (inferTerm_safe hv (W.term_known d) h h₀).bind fun a σ₁ S₁ h₁ hto₁ ⟨hav, hin, hT⟩ => ?_
    have hr : ∀ b ∈ key.receiver, σ₁.types.Has b := fun b hb =>
      (Values.of_shape ((hk.mono hto₁.extend.types).receiver b hb)).1
    refine (SafeIn.onTypes h₁ (Method.restriction_settles h₁.ok.types h₁.ok.described hm i hr)).bind
      fun r σ₂ S₂ h₂ hto₂ ⟨⟨hhas, hrest⟩, hS⟩ => ?_
    subst hS
    have hav₂ := hav.mono h₁.ok.types hto₂.extend.types
    have hin₂ := hin.mono hto₂.extend.types
    have typed (τ : State) (U : Scope) (hs₂ : Sees σ₂ S₂ τ U)
        (hfit : ∀ u : TypeTable, σ₂.types ≤ u → ∀ b ∈ r, W.tree.isSubtype u a b = true) :
        W.Typed τ U (W.ctx.term d) S.locals a S₂.locals ∧ FitsRestriction W τ m key i a := by
      refine ⟨hT τ U (hto₂.sees hs₂), fun u hu hle' b hb => ?_⟩
      have hle₂ := le_trans hs₂.later.types hle'
      exact hfit u hle₂ b (by rwa [hrest u hu hle₂] at hb)
    cases r with
    | none => exact .pure h₂ ⟨hav₂, hin₂, fun τ U hs₂ => typed τ U hs₂ (by simp)⟩
    | some b =>
      have hb : σ₂.types.Has b := hhas b rfl
      have htree {σ : State} (ht : σ.hierarchy.tree = W.tree) :
          σ.hierarchy.isSubtype σ.types a b = W.tree.isSubtype σ.types a b := by
        rw [← Hierarchy.isSubtype_tree, ht]
      have later {u : TypeTable} (hu : σ₂.types ≤ u) :
          W.tree.isSubtype u a b = W.tree.isSubtype σ₂.types a b :=
        W.tree.isSubtype_mono h₂.ok.types hav₂.1 hb hu
      refine SafeIn.get (f := fun s => _) (g := fun s => _) ?_ fun τ U hs₂ => ?_
      · dsimp only
        split
        · rename_i hsub
          refine .pure h₂ ⟨hav₂, hin₂, fun τ U hs₂ => typed τ U hs₂ fun u hu b' hb' => ?_⟩
          cases hb'
          rw [later hu, ← htree h₂.ok.tree]
          exact hsub
        · refine .throw h₂ fun _ hdiv => ?_
          obtain ⟨name, rounds, he⟩ := hdiv
          cases he
      · have hτ : τ.hierarchy.tree = W.tree := by rw [hs₂.later.hierarchy, h₂.ok.tree]
        have hsub : τ.hierarchy.isSubtype τ.types a b = σ₂.hierarchy.isSubtype σ₂.types a b := by
          rw [htree hτ, htree h₂.ok.tree, later hs₂.later.types]
        have htext (c : TypeId) (hc : σ₂.types.Has c) :
            τ.hierarchy.typeText τ.types W.ctx.names c =
              σ₂.hierarchy.typeText σ₂.types W.ctx.names c := by
          rw [hs₂.later.hierarchy]
          exact Hierarchy.typeText_mono _ h₂.ok.types hc hs₂.later.types _
        simp only [hsub, htext a hav₂.1, htext b hb]

omit hv hm in
theorem bindParams_cons (visit : SpecId → Infer TypeId) (i : Nat) (p : Param) (ps : List Param) :
    Infer.bindParams W.ctx visit m key i (p :: ps) = (do
      Infer.bindParams W.ctx visit m key i [p]
      Infer.bindParams W.ctx visit m key (i + 1) ps) := by
  simp only [Infer.bindParams]
  cases key.args[i]? <;> simp only [bind_assoc, pure_bind]

/-- Binding one parameter. -/
theorem bindParam_safe (i : Nat) {p : Param} (hp : p.name ∈ W.names) (h : W.At σ S)
    (h₀ : W.Extends σ₀ σ) (hk : W.KeyOk σ.types key) :
    W.SafeIn σ S (Infer.bindParams W.ctx visit m key i [p])
      (Infer.bindParams W.ctx W.answer m key i [p]) fun _ σ' S' =>
        ∃ a S₁, S' = S₁.bind p.name a ∧ ∀ τ U, Sees σ' S' τ U → match key.args[i]?, p.default with
          | some b, _ => a = b ∧ S₁ = S
          | none, none => a = .nil ∧ S₁ = S
          | none, some d => W.Typed τ U (W.ctx.term d) S.locals a S₁.locals ∧
              FitsRestriction W τ m key i a := by
  -- What is left to do is to store the type.
  have store {a : TypeId} {σ₁ : State} {S₁ : Scope} (h₁ : W.At σ₁ S₁)
      (hav : σ₁.types.Values W.classes a) {P : State → Scope → Prop}
      (hP : ∀ τ U, Sees σ₁ S₁ τ U → P τ U) :
      W.SafeIn σ₁ S₁ (do setLocal p.name a; pure ()) (do setLocal p.name a; pure ())
        fun _ σ' S' => ∃ a' S₁', (a' = a ∧ S₁' = S₁) ∧ S' = S₁'.bind p.name a' ∧
          ∀ τ U, Sees σ' S' τ U → P τ U := by
    refine (SafeIn.setLocal h₁ hp hav).bind fun _ σ₂ S₂ h₂ hto₂ ⟨hσ, hS₂⟩ => .pure h₂ ?_
    subst hσ
    exact ⟨a, S₁, ⟨rfl, rfl⟩, hS₂, fun τ U hs => hP τ U (hto₂.sees hs)⟩
  simp only [Infer.bindParams]
  cases hi : key.args[i]? with
  | some b =>
    simp only [pure_bind]
    refine (store h (.of_shape (hk.args b (List.mem_of_getElem? hi))) (P := fun _ _ => True)
      fun _ _ _ => trivial).mono ?_
    rintro - σ' S' - - ⟨a, S₁, ⟨rfl, rfl⟩, hS, -⟩
    exact ⟨_, _, hS, fun _ _ _ => ⟨rfl, rfl⟩⟩
  | none =>
    cases hd : p.default with
    | none =>
      simp only [Infer.inferDefault, hd, pure_bind]
      refine (store h (.nil h.ok.types W.five_le) (P := fun _ _ => True)
        fun _ _ _ => trivial).mono ?_
      rintro - σ' S' - - ⟨a, S₁, ⟨rfl, rfl⟩, hS, -⟩
      exact ⟨_, _, hS, fun _ _ _ => ⟨rfl, rfl⟩⟩
    | some d =>
      refine (inferDefault_safe hv hm h h₀ hk i p).bind fun a σ₁ S₁ h₁ hto₁ ⟨hav, _, hT⟩ => ?_
      simp only [hd] at hT
      refine (store h₁ hav hT).mono ?_
      rintro - σ' S' - - ⟨a', S₁', ⟨rfl, rfl⟩, hS, hP⟩
      exact ⟨_, _, hS, hP⟩

/-- Binding the parameters from position `i` on. -/
theorem bindParams_safe (i : Nat) {ps : List Param} (hps : ∀ p ∈ ps, p.name ∈ W.names)
    (h : W.At σ S) (h₀ : W.Extends σ₀ σ) (hk : W.KeyOk σ.types key) :
    W.SafeIn σ S (Infer.bindParams W.ctx visit m key i ps)
      (Infer.bindParams W.ctx W.answer m key i ps) fun _ σ' S' =>
        ∀ τ U, Sees σ' S' τ U → Binds W τ U m key i ps S S' := by
  induction ps generalizing i σ S with
  | nil => exact .pure h fun _ _ _ => rfl
  | cons p ps ih =>
    rw [bindParams_cons visit i p ps, bindParams_cons W.answer i p ps]
    refine (bindParam_safe hv hm i (hps p (.head _)) h h₀ hk).again.bind ?_
    intro _ σ₁ S₁ h₁ hto₁ ⟨⟨a, S₂, hS, hT⟩, hagain⟩
    subst hS
    refine (ih (i + 1) (fun q hq => hps q (.tail _ hq)) h₁ (h₀.trans hto₁.extend)
      (hk.mono hto₁.extend.types)).mono fun _ σ' S' _ hto' hB τ U hs => ?_
    exact ⟨a, S₂, hT τ U (hto'.sees hs), fun hrec => hagain τ U (hto'.sees hs) hrec,
      hB τ U hs⟩

/-- Typing parameters and body. -/
theorem inferBody_safe (h : W.At σ S) (h₀ : W.Extends σ₀ σ) (hk : W.KeyOk σ.types key) :
    W.SafeIn σ S (Infer.inferBody W.ctx visit m key) (Infer.inferBody W.ctx W.answer m key)
      fun a σ' S' => σ'.types.Values W.classes a ∧ ∀ τ, Sees σ' S' τ S' → ∃ S₁ b L',
        Binds W τ S' m key 0 m.definition.params S S₁ ∧
        W.Typed τ S' (W.ctx.term m.definition.body) S₁.locals b L' ∧
        τ.types.Joins b S'.returns a := by
  unfold Infer.inferBody
  refine (bindParams_safe hv hm 0 (fun p hp => W.params_known _ m p hm hp) h h₀ hk).bind
    fun _ σ₁ S₁ h₁ hto₁ hB => ?_
  refine (inferTerm_safe hv (W.term_known _) h₁ (h₀.trans hto₁.extend)).bind
    fun b σ₂ S₂ h₂ hto₂ ⟨hbv, _, hT⟩ => ?_
  set params : Scope → Scope := fun s => { s with body := { s.body with
    paramTypes := m.definition.params.map fun p => s.locals[p.name]?.getD .nil } } with hparams
  have hS : W.ScopeOk σ₂ (params S₂) := { h₂.scope with }
  have hrec : Records σ₂.types S₂ (params S₂) := { h₂.scope.records_refl with }
  refine (SafeIn.modifyScope h₂ hS hrec id).bind fun _ σ₃ S₃ h₃ hto₃ ⟨hσ, hS₃⟩ => ?_
  subst hσ
  refine SafeIn.scope ((SafeIn.union h₃ hbv h₃.scope.returns).mono
    fun a σ' S' _ hto' ⟨hj, hav, hS'⟩ => ?_)
  subst hS'
  refine ⟨hav, fun τ hs => ⟨S₁, b, S₂.locals, hB τ _ ?_, hT τ _ ?_, hj.mono hs.later.types⟩⟩
  · exact (hto₂.trans (hto₃.trans hto')).sees hs
  · exact (hto₃.trans hto').sees hs

end

/-- The scope in which an evaluation begins is fine. -/
theorem at_opened (h : W.Ok σ) {key : SpecKey} (hk : W.KeyOk σ.types key) :
    W.At σ (.opened σ.types key) := by
  refine ⟨h, hk.receiver, fun c hc => ?_, fun n a ha => by simp [Scope.opened] at ha,
    .never h.types, fun e a ha => by simp [Scope.opened] at ha, fun e r c callee hf => ?_⟩
  · obtain ⟨a, ha, hac⟩ := Option.bind_eq_some_iff.1 hc
    have := hk.receiver a ha
    unfold instanceClass? at hac
    cases hs : σ.types.shape a <;> simp only [hs, Shape.instanceClass?, Shape.IsValue] at hac this
    · cases hac; exact this
    all_goals first | exact this.elim | cases hac
  · simp [Scope.opened, Body.dispatchAt, DispatchTable.find?_empty] at hf

/-- It stays the same when types are added. -/
theorem opened_mono {t u : TypeTable} (hle : t ≤ u) {key : SpecKey} (hk : W.KeyOk t key) :
    Scope.opened u key = .opened t key := by
  unfold Scope.opened
  cases hrec : key.receiver with
  | none => rfl
  | some o =>
    simp only [Option.bind_some, instanceClass?,
      (Values.of_shape (hk.receiver o hrec)).1.shape_eq hle]

/-- An evaluation, as it ends. -/
theorem evaluate_eq {key : SpecKey} {m : Method} (hm : W.ctx.methods.get? key.method = some m)
    {r : Except TypeError TypeId}
    (hx : Infer.inferBody W.ctx visit m key (σ, .opened σ.types key) = some (r, σ', S')) :
    Infer.evaluate W.ctx visit key σ = some (r.map fun a => (a, S'.body), σ') := by
  have hw : Infer.within (.opened σ.types key) (Infer.inferBody W.ctx visit m key) σ =
      some (r.map fun a => (a, S'), σ') := by
    show (Infer.inferBody W.ctx visit m key (σ, .opened σ.types key) >>= fun p =>
      some (p.1.map fun a => (a, p.2.2), p.2.1)) = _
    rw [hx]; rfl
  unfold Infer.evaluate
  simp only [hm]
  show (Infer.within _ (Infer.inferBody W.ctx visit m key) σ >>= fun p => (ExceptT.bindCont
    (fun q => pure (q.1, q.2.body)) p.1 : Run (Except TypeError (TypeId × Body))) p.2) = _
  rw [show Infer.within { self := key.receiver
                          selfClass := key.receiver.bind σ.types.instanceClass? }
      (Infer.inferBody W.ctx visit m key) σ = _ from hw]
  cases r <;> rfl

/-- Evaluating the body of a specialization once. -/
theorem evaluate_safe (hv : W.Visits σ₀ visit) (h : W.Ok σ) (h₀ : W.Extends σ₀ σ) {key : SpecKey}
    (hk : W.KeyOk σ.types key) :
    W.Safe σ (Infer.evaluate W.ctx visit key) fun r σ' => σ'.types.Values W.classes r.1 ∧
      W.RowsOk σ' key.receiver r.2 ∧ (Closed σ → Closed σ' ∧ ReachedBy σ' r.2) ∧
      (σ'.changed = false → ∀ τ, Later σ' τ (fun _ => True) → ∀ i : Specialization,
        i.key = key → i.body = r.2 → τ.types.Inside r.1 i.returnType → W.Settled τ i) := by
  obtain ⟨m, hm, -⟩ := hk.method
  obtain ⟨r, σ', S', hx, hat', hto, hend⟩ := inferBody_safe hv hm (at_opened h hk) h₀ hk
  refine ⟨_, σ', evaluate_eq hm hx, hat'.ok, hto.extend, ?_⟩
  cases r with
  | error e => exact hend
  | ok a =>
    obtain ⟨⟨hav, hT⟩, hcl, hagain⟩ := hend
    have closed (hc : Closed σ) : Closed σ' ∧ ReachedBy σ' S'.body :=
      hcl ⟨hc, fun e r c callee hf => by
        simp [Scope.opened, Body.dispatchAt, DispatchTable.find?_empty] at hf⟩
    have hself : S'.self = key.receiver := hto.records.self
    refine ⟨⟨hav, hself ▸ hat'.scope.rows, closed, fun hch τ hl i hkey hbody hin => ?_⟩,
      fun hc => (closed hc).1⟩
    have hs : Sees σ' S' τ S' := by
      refine ⟨hch, hl.imp fun _ _ => trivial, ?_⟩
      have hr := hat'.scope.records_refl
      exact { hr with
        exprTypes := fun e b hb =>
          ⟨b, hb, .refl ((hat'.scope.exprTypes e b hb).1.mono hl.types)⟩
        returns := hr.returns.mono hl.types }
    have hopen := opened_mono (W := W) (le_trans hto.extend.types hl.types) hk
    obtain ⟨S₁, b, L', hB, hbody', hj⟩ := hT τ hs
    refine ⟨⟨m, S', S₁, ?_⟩, fun hrec => ⟨a, ?_, hin⟩⟩
    · exact {
        method := by rw [hkey, hm]
        body := hbody.symm
        self := by rw [hself, hkey]
        selfClass := by
          rw [hto.records.selfClass, hkey, ← hopen]
          rfl
        binds := by
          rw [hkey, hopen]
          exact hB
        typed := ⟨b, L', hbody', hj.left.trans hin⟩
        returns := hj.right.trans hin }
    · rw [hkey, hbody, evaluate_eq hm (hopen ▸ hagain τ S' hs hrec)]
      rfl

end World

end Multimethod
