import Multimethod.Proofs.Inference.Top
import Multimethod.Proofs.Pass.Term

/-!
# Visits of an earlier pass

What the last pass has stored of a specialization says how its parameters are bound and its body is
typed there, and an earlier evaluation stays within that. So it ends in no error but that a limit
was reached (`World.visit_diverges`).
-/

namespace Multimethod

open Inference TypeTable InferIn

namespace World

variable {W : World} {τ σ₀ σ σ₁ σ' : State} {S S₁ S' U R R' : Scope}
  {visit : SpecId → Infer TypeId} {a b : TypeId} {L L' : Locals} {B : List Name} {key : SpecKey}
  {m : Method} {s : SpecId} {i : Specialization}

/-- A computation that has ended in an error has reached a limit. -/
def OnlyDiverges {α : Type} (τ : State) (r : Except TypeError α) (σ' : State) : Prop :=
  ∀ e, r = .error e → σ'.Grows τ → e.IsDivergence

theorem OnlyDiverges.error {α : Type} {e : TypeError} (h : σ'.Grows τ → e.IsDivergence) :
    OnlyDiverges τ (.error e : Except TypeError α) σ' := by
  rintro _ ⟨⟩ hg
  exact h hg

theorem OnlyDiverges.ok {α : Type} {a : α} :
    OnlyDiverges τ (.ok a : Except TypeError α) σ' := by
  rintro _ ⟨⟩

/-! ## Parameters -/

/-- The type to which a parameter is bound. -/
def argument (W : World) (visit : SpecId → Infer TypeId) (m : Method) (key : SpecKey) (i : Nat)
    (p : Param) : InferIn TypeId :=
  match key.args[i]? with
  | some a => pure a
  | none => Infer.inferDefault W.ctx visit m key i p

theorem bindParams_argument (i : Nat) (p : Param) (ps : List Param) :
    Infer.bindParams W.ctx visit m key i (p :: ps) = (do
      let a ← W.argument visit m key i p
      setLocal p.name a
      Infer.bindParams W.ctx visit m key (i + 1) ps) := by
  simp only [Infer.bindParams, argument]
  cases key.args[i]? <;> rfl

section
variable (hv : W.Answering τ σ₀ visit) (hτ : W.Ok τ) (hidle : AllIdle τ)
  (hreach : ReachedBy τ U.body) (hm : W.ctx.methods.get? key.method = some m)
include hv hτ hidle hreach hm

/-- A default stays within its type in the last pass, and so it fits the restriction. -/
theorem inferDefault_stays (h : W.At σ S) (h₀ : W.Extends σ₀ σ) (hk : W.KeyOk σ.types key) (i : Nat)
    (p : Param) (ho : ∀ d ∈ p.default, (W.ctx.term d).KeepsTo B ∧ (W.ctx.term d).orderly B = true)
    (hJ : σ.Grows τ → (match p.default with
      | none => a = .nil ∧ L' = L
      | some d => W.Typed τ U (W.ctx.term d) L a L' ∧ FitsRestriction W τ m key i a) ∧
        Beside τ U B S L) :
    W.CompletesIn σ S (Infer.inferDefault W.ctx visit m key i p) (W.Stays τ True a L') := by
  unfold Infer.inferDefault
  cases hd : p.default with
  | none =>
    simp only [hd] at hJ
    exact constant_stays h (.nil h.ok.types W.five_le) hJ
  | some d =>
    simp only [hd] at hJ
    obtain ⟨hkeeps, hod⟩ := ho d hd
    refine (inferTerm_stays hv hτ hidle hreach (W.term_known d) hod h h₀ fun hg =>
      ⟨(hJ hg).1.1, (hJ hg).2⟩).bind (fun b σ₁ S₁ h₁ hto₁ ⟨hbv, hb⟩ => ?_)
        fun e σ' S' _ _ he hg => ⟨(he hg).1, fun _ => (he hg).2 hkeeps⟩
    have hr : ∀ c ∈ key.receiver, σ₁.types.Has c := fun c hc =>
      (Values.of_shape ((hk.mono hto₁.extend.types).receiver c hc)).1
    refine .bind_safe (.onTypes h₁ (Method.restriction_settles h₁.ok.types h₁.ok.described hm i hr))
      (.onTypes _) fun r σ₂ S₂ h₂ hto₂ ⟨⟨hhas, hrest⟩, hS⟩ => ?_
    subst hS
    have stays : W.CompletesIn σ₂ S₂ (pure b) (W.Stays τ True a L') :=
      .pure h₂ ⟨hbv.mono h₁.ok.types hto₂.extend.types, fun hg =>
        ⟨(hb (hto₂.below hg)).1, fun _ => (hb (hto₂.below hg)).2 (.inr hkeeps)⟩⟩
    cases r with
    | none => exact stays
    | some c =>
      refine .get ?_
      dsimp only
      split
      · exact stays
      · rename_i hsub
        refine .throw h₂ fun hg => absurd ?_ hsub
        -- In the end the restriction is the same, and it has all the members of `a`.
        have hg₁ := hto₂.below hg
        have hfits := (hJ (hto₁.below hg₁)).1.2 τ.types hτ.types (le_refl _) c
          (by rw [hrest τ.types hτ.types hg.types]; rfl)
        rw [← Hierarchy.isSubtype_tree, h₂.ok.tree,
          ← W.tree.isSubtype_mono h₂.ok.types (hbv.1.mono hto₂.extend.types) (hhas c rfl) hg.types]
        exact W.tree.isSubtype_of_subset (hb hg₁).1 hfits

/-- Binding one parameter, from the scope `R` of the last pass to `R'`. -/
theorem bindParam_stays (h : W.At σ S) (h₀ : W.Extends σ₀ σ) (hk : W.KeyOk σ.types key) (i : Nat)
    (p : Param) (ho : ∀ d ∈ p.default, (W.ctx.term d).KeepsTo B ∧ (W.ctx.term d).orderly B = true)
    (hJ : σ.Grows τ → (match key.args[i]?, p.default with
      | some b, _ => a = b ∧ R' = R
      | none, none => a = .nil ∧ R' = R
      | none, some d => W.Typed τ U (W.ctx.term d) R.locals a R'.locals ∧
          FitsRestriction W τ m key i a) ∧ Beside τ U B S R.locals) :
    W.CompletesIn σ S (W.argument visit m key i p) (W.Stays τ True a R'.locals) := by
  unfold argument
  cases hi : key.args[i]? with
  | some b =>
    simp only [hi] at hJ
    refine constant_stays (U := U) (B := B) (L := R'.locals) h
      (.of_shape (hk.args b (List.mem_of_getElem? hi))) fun hg => ?_
    obtain ⟨⟨ha, rfl⟩, hB⟩ := hJ hg
    exact ⟨⟨ha, rfl⟩, hB⟩
  | none =>
    refine inferDefault_stays (L := R.locals) hv hτ hidle hreach hm h h₀ hk i p ho fun hg => ?_
    simp only [hi] at hJ
    cases hd : p.default with
    | none =>
      simp only [hd] at hJ
      obtain ⟨⟨ha, rfl⟩, hB⟩ := hJ hg
      exact ⟨⟨ha, rfl⟩, hB⟩
    | some d =>
      simp only [hd] at hJ
      exact hJ hg

omit hv hτ hidle hreach hm in
/-- What binding parameters gives: the scope in which the body is typed is beside `R`. -/
def Binding (W : World) (τ : State) (U : Scope) (body : ExprId) (R : Scope) :
    Except TypeError Unit → State → Scope → Prop
  | .ok _, σ', S' => ∃ B, (W.ctx.term body).orderly B = true ∧
      (σ'.Grows τ → Beside τ U B S' R.locals)
  | .error e, σ', _ => σ'.Grows τ → e.IsDivergence

/-- Binding the parameters from position `i` on. -/
theorem bindParams_stays (body : ExprId) (i : Nat) {ps : List Param}
    (ho : W.ctx.orderlyFrom body B ps = true) (hps : ∀ p ∈ ps, p.name ∈ W.names) (h : W.At σ S)
    (h₀ : W.Extends σ₀ σ) (hk : W.KeyOk σ.types key)
    (hJ : σ.Grows τ → W.Binds τ U m key i ps R R' ∧ Beside τ U B S R.locals) :
    W.CompletesIn σ S (Infer.bindParams W.ctx visit m key i ps) (W.Binding τ U body R') := by
  induction ps generalizing i σ S B R with
  | nil =>
    refine .pure h ⟨B, ho, fun hg => ?_⟩
    obtain ⟨rfl, hB⟩ := hJ hg
    exact hB
  | cons p ps ih =>
    simp only [Context.orderlyFrom, Bool.and_eq_true, Option.all_eq_true, decide_eq_true_eq] at ho
    have : Nonempty Scope := ⟨{}⟩
    obtain ⟨a, R₁, hb⟩ := exists_of_imp₂ fun hg => (hJ hg).1
    have hgrows (hg : σ.Grows τ) : Locals.Grows τ.types R.locals R₁.locals := by
      have := (hb hg).1
      split at this
      · rw [this.2]; exact .refl
      · rw [this.2]; exact .refl
      · exact this.1.grows
    rw [bindParams_argument]
    refine (bindParam_stays hv hτ hidle hreach hm h h₀ hk i p ho.1
      fun hg => ⟨(hb hg).1, (hJ hg).2⟩).bind (fun b σ₁ S₁ h₁ hto₁ hstays => ?_)
        fun e σ' S' _ _ he hg => (he hg).1
    · obtain ⟨hbv, hb'⟩ := hstays
      refine .bind_safe (.setLocal h₁ (hps p (.head _)) hbv) (.setLocal p.name b)
        fun _ σ₂ S₂ h₂ hto₂ hset => ?_
      obtain ⟨hσ, hS⟩ := hset
      subst hσ
      refine ih (B := p.name :: B) (R := R₁.bind p.name a) (i + 1) ho.2
        (fun q hq => hps q (.tail _ hq)) h₂ (h₀.trans hto₁.extend) (hk.mono hto₁.extend.types)
        fun hg => ⟨(hb (hto₁.below hg)).2.2, ?_⟩
      have hg₀ := hto₁.below hg
      refine ⟨hto₂.records.self.trans (hto₁.records.self.trans (hJ hg₀).2.self),
        hto₂.records.selfClass.trans (hto₁.records.selfClass.trans (hJ hg₀).2.selfClass), ?_,
        fun n hn => ?_⟩
      · rw [hS]
        exact ((hb' hg).2 (.inr trivial)).insert (hb' hg).1
      · show (R₁.locals.insert p.name a)[n]? ≠ none
        rw [Std.ExtTreeMap.getElem?_insert]
        split
        · simp
        · rename_i hne
          refine (hgrows hg₀).bound ((hJ hg₀).2.bound n ((List.mem_cons.1 hn).resolve_left ?_))
          rintro rfl
          exact hne (Std.compare_eq_iff_eq.2 rfl)

end

/-! ## Evaluations -/

/-- A state in which a pass ends that has changed nothing. -/
structure Rests (W : World) (τ : State) : Prop where
  ok : W.Ok τ
  idle : AllIdle τ
  unchanged : τ.changed = false
  closed : Closed τ

/-- What has been evaluated in such a pass is typed, and leads to what has been evaluated too. -/
theorem Rests.checked (hτ : W.Rests τ) (hd : Done τ s) : ∃ i m U R, τ.specs.get? s = some i ∧
    W.CheckedBy τ U i m R ∧ ReachedBy τ U.body := by
  obtain ⟨i, hi, hidle, hdone⟩ := hd
  obtain ⟨m, U, R, hc⟩ := (hτ.ok.settled s i hi hidle hdone hτ.unchanged τ
    (hτ.ok.later_refl _)).checks
  exact ⟨i, m, U, R, hi, hc, hc.body ▸ hτ.closed s i hi hidle hdone⟩

section
variable (hv : W.Answering τ σ₀ visit) (hτ : W.Rests τ) (ho : W.ctx.orderly = true)
include hv hτ ho

/-- Typing parameters and body of a specialization that is typed in the last pass. -/
theorem inferBody_diverges (hc : W.CheckedBy τ U i m R) (hreach : ReachedBy τ U.body) (h : W.Ok σ)
    (h₀ : W.Extends σ₀ σ) (hk : W.KeyOk σ.types i.key) :
    W.CompletesIn σ (.opened σ.types i.key) (Infer.inferBody W.ctx visit m i.key)
      fun r σ' _ => OnlyDiverges τ r σ' := by
  have beside (hg : σ.Grows τ) : Beside τ U [] (.opened σ.types i.key) ∅ := by
    rw [← opened_mono hg.types hk]
    exact ⟨hc.self.symm, hc.selfClass.symm, .empty, nofun⟩
  obtain ⟨a, L', hT, -⟩ := hc.typed
  unfold Infer.inferBody
  refine (bindParams_stays hv hτ.ok hτ.idle hreach hc.method m.definition.body 0
    (Context.orderlyFrom_of_orderly ho hc.method) (fun p hp => W.params_known _ m p hc.method hp)
    (at_opened h hk) h₀ hk fun hg => ⟨hc.binds, beside hg⟩).bind
      (fun _ σ₁ S₁ h₁ hto₁ ⟨B, hob, hB⟩ => ?_) fun e σ' _ _ _ he => .error he
  refine (inferTerm_stays hv hτ.ok hτ.idle hreach (W.term_known _) hob h₁ (h₀.trans hto₁.extend)
    fun hg => ⟨hT, hB hg⟩).bind (fun b σ₂ S₂ h₂ hto₂ ⟨hbv, _⟩ => ?_)
      fun e σ' _ _ _ he => .error fun hg => (he hg).1
  -- What is left cannot fail.
  refine .bind_safe (.modifyScope h₂ (f := fun s => { s with body := { s.body with
    paramTypes := m.definition.params.map fun p => s.locals[p.name]?.getD .nil } })
    { h₂.scope with } { h₂.scope.records_refl with } id) (.modifyScope _)
    fun _ σ₃ S₃ h₃ _ ⟨hσ, _⟩ => ?_
  subst hσ
  exact .scope (.of_safe (.union h₃ hbv h₃.scope.returns) (.union _ _) fun _ _ _ _ _ _ => nofun)

/-- Evaluating a specialization that the last pass has evaluated too. -/
theorem evaluate_diverges (h : W.Ok σ) (h₀ : W.Extends σ₀ σ) (hi : σ.specs.get? s = some i)
    (hd : Done τ s) :
    W.Completes σ (Infer.evaluate W.ctx visit i.key) (OnlyDiverges τ) := by
  have hk := h.keys s i hi
  by_cases hg : σ.Grows τ
  · obtain ⟨j, m, U, R, hj, hc, hreach⟩ := hτ.checked hd
    obtain ⟨j', hj', hkey, -⟩ := hg.specs s i hi
    cases hj.symm.trans hj'
    rw [← hkey] at hk ⊢
    obtain ⟨r, σ', S', hx, hat, hto, hr⟩ := inferBody_diverges hv hτ ho hc hreach h h₀ hk
    refine ⟨_, σ', evaluate_eq hc.method hx, hat.ok, hto.extend, ?_⟩
    cases r with
    | ok a => exact .ok
    | error e => exact .error (hr e rfl)
  · obtain ⟨r, σ', hx, hok, he, -⟩ := evaluate_safe hv.safe h h₀ hk
    exact ⟨r, σ', hx, hok, he, fun _ _ hg' => absurd (he.below hg') hg⟩

/-- Evaluating it until the result fits. -/
theorem widen_diverges (rounds : Nat) (h : W.Ok σ) (h₀ : W.Extends σ₀ σ)
    (hi : σ.specs.get? s = some i) (hkey : i.key = key) (hrun : i.stage = .running)
    (hd : Done τ s) :
    W.Completes σ (Infer.widen W.ctx visit s key rounds) (OnlyDiverges τ) := by
  induction rounds generalizing σ i with
  | zero =>
    simp only [Infer.widen]
    exact .congr (Infer.bind_ok rfl) (.throw h (.error fun _ => ⟨_, _, rfl⟩))
  | succ rounds ih =>
    simp only [Infer.widen]
    obtain ⟨h₁, he₁, -⟩ := Extends.changing (f := fun i => { i with answers := [] })
      (fun _ => rfl) h (fun _ => rfl) hi hrun (h.rows s i hi) fun _ => rfl
    have hi₁ : (changing σ s fun i => { i with answers := [] }).specs.get? s =
        some { i with answers := [] } := by rw [get?_changing, if_pos rfl, hi]; rfl
    have hev := hkey ▸ evaluate_diverges hv hτ ho h₁ (h₀.trans he₁) hi₁ hd
    have hsafe := evaluate_safe hv.safe h₁ (h₀.trans he₁) (hkey ▸ h.keys s i hi)
    refine .after he₁ (modifySpec_eq _) ((hev.and_safe hsafe).bind
      (fun evaluated σ₂ h₂ he₂ hends => ?_) fun e σ' _ _ hends => .error (hends.1 e rfl))
    obtain ⟨result, body⟩ := evaluated
    obtain ⟨hrv, hrows, -⟩ := hends.2 _ rfl
    obtain ⟨i₂, hi₂, hkey₂, -⟩ := (he₁.trans he₂).specs s i hi
    have hrun₂ := ((he₁.trans he₂).stage s i i₂ hi hi₂).trans hrun
    obtain ⟨w, σ₃, h₃, he₃, -, hj, hi₃, hrest⟩ :=
      stored_safe h₂ hi₂ hrun₂ hrv (by rw [hkey₂, hkey]; exact hrows)
    refine .after he₃ (hrest _) ?_
    have hwv : σ₃.types.Values W.classes w := .of_joins hj
      ((h₂.returns s i₂ hi₂).mono h₂.types he₃.types) (hrv.mono h₂.types he₃.types)
    by_cases hw : w = i₂.returnType
    · rw [if_pos hw]
      exact .pure h₃ .ok
    · rw [if_neg hw]
      obtain ⟨h₄, he₄, -⟩ := Extends.widening h₃ hi₃ hrun₂ hj.left hwv hw
      have hi₄ : (widening σ₃ s w).specs.get? s = some { i₂ with body, returnType := w } := by
        rw [get?_widening hi₃, if_pos rfl]
      refine .after (y := do
        if (← Infer.spec? s).all (·.answers.isEmpty) then return w
        else Infer.widen W.ctx visit s key rounds) he₄ ((modifySpec_eq _).trans
          (Infer.bind_ok rfl)) ?_
      refine .congr (Infer.bind_ok (a := (widening σ₃ s w).specs.get? s) (τ := widening σ₃ s w) rfl) ?_
      split
      · exact .pure h₄ .ok
      · exact ih h₄ (h₀.trans ((he₁.trans he₂).trans (he₃.trans he₄))) hi₄ (hkey₂.trans hkey) hrun₂

end

/-! ## Visits -/

/-- Answering a visit ends in no other error than evaluating. -/
theorem visitWith_diverges {run : SpecId → SpecKey → Infer TypeId} (hi : σ.specs.get? s = some i)
    (hrun : i.stage = .idle → i.donePass ≠ some σ.pass →
      W.Completes (starting σ s) (run s i.key) (OnlyDiverges τ)) {r : Except TypeError TypeId}
    (hx : Infer.visitWith run s σ = some (r, σ')) : OnlyDiverges τ r σ' := by
  cases hs : i.stage with
  | frozen =>
    cases (visitWith_stored hi (.inl hs)).symm.trans hx
    exact .ok
  | running =>
    cases (visitWith_running hi hs).symm.trans hx
    exact .ok
  | idle =>
    by_cases hd : i.donePass = some σ.pass
    · cases (visitWith_stored hi (.inr ⟨hs, hd⟩)).symm.trans hx
      exact .ok
    · obtain ⟨r', σ₁, hx₁, h₁, -, hr⟩ := hrun hs hd
      cases (visitWith_idle hi hs hd hx₁).symm.trans hx
      intro e he hg
      have hfinish (pass) : W.Widens σ₁ (finishing σ₁ s pass) := .changing h₁ fun _ => rfl
      exact hr e he ((hfinish _).toGrows.trans hg)

section
variable (hτ : W.Rests τ) (ho : W.ctx.orderly = true)
include hτ ho

/-- A visit of a specialization that the last pass has evaluated ends in no error but that a limit
was reached. -/
theorem visit_diverges (depth : Nat) (h : W.Ok σ) (hi : σ.specs.get? s = some i)
    (hdepth : nestingBound W.ctx σ ≤ depth + (running σ).card) (hd : Done τ s)
    {r : Except TypeError TypeId} (hx : Infer.visit W.ctx depth s σ = some (r, σ')) :
    OnlyDiverges τ r σ' := by
  induction depth generalizing σ s i r σ' with
  | zero =>
    refine visitWith_diverges (W := W) hi (fun hidle _ => ?_) hx
    have := card_running_lt h hi hidle
    omega
  | succ depth ih =>
    refine visitWith_diverges (W := W) hi (fun hidle _ => ?_) hx
    have h₁ : W.Ok (starting σ s) := starting_ok h
    have hdeep {σ₁ : State} (h' : W.Ok σ₁) (he : W.Extends (starting σ s) σ₁) :
        nestingBound W.ctx σ₁ ≤ depth + (running σ₁).card := by
      rw [he.running_eq, card_running_starting hi hidle, nestingBound_eq h h']
      omega
    have hv : W.Answering τ (starting σ s) (Infer.visit W.ctx depth) := by
      constructor
      · intro σ₁ s₁ h' he ⟨i₁, hi₁⟩
        exact visit_safe depth h' hi₁ (hdeep h' he)
      · intro σ₁ s₁ e σ₂ h' he ⟨i₁, hi₁⟩ hx hg hd
        exact ih h' hi₁ (hdeep h' he) hd hx e rfl hg
    exact widen_diverges hv hτ ho _ h₁ (.refl h₁) (i := { i with stage := .running })
      (get?_starting_self hi) rfl rfl hd

theorem answering_visit (h : W.Ok σ) :
    W.Answering τ σ (Infer.visit W.ctx (nestingBound W.ctx σ)) where
  safe := visits_visit h
  error σ₁ s e σ₂ h' _ := fun ⟨_, hi⟩ hx hg hd =>
    visit_diverges hτ ho _ h' hi (by rw [nestingBound_eq h h']; omega) hd hx e rfl hg

end

end World

end Multimethod
