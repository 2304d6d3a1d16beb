import Multimethod.Inference.Program
import Multimethod.Proofs.Inference.Visit

/-!
# The top level and the passes

Each pass leaves a state from which the next one may start, and is heavier than it was if it has
changed. No state is heavier than `World.heaviest`, so with as many passes allowed the last one
changes nothing (`World.runPasses_safe`). What it found is then true of the final state
(`World.Found`).
-/

namespace Multimethod

open Inference TypeTable

namespace World

variable {W : World} {σ₀ σ σ' τ : State} {S S' U : Scope} {visit : SpecId → Infer TypeId}

/-- Top-level statements have their types, the last one `a`. Each is typed, whatever the type of the
one before is. -/
def TypedTop (W : World) (τ : State) (U : Scope) (last : TypeId) :
    List Term → Locals → TypeId → Locals → Prop
  | [], L, a, L' => a = last ∧ L' = L
  | t :: ts, L, a, L' => ∃ b L₁, W.Typed τ U t L b L₁ ∧ TypedTop W τ U b ts L₁ a L'

/-- What is known when some top-level statements have been typed, with some errors `es`. -/
structure Stated (W : World) (σ : State) (S : Scope) (last : TypeId) (ts : List Term)
    (es : List TypeError) (a : TypeId) (σ' : State) (S' : Scope) : Prop where
  fine : W.At σ' S'
  step : W.To σ S σ' S'
  values : σ'.types.Values W.classes a
  excused : ∀ e ∈ es, W.Excused e
  closed : es = [] → ClosedIn σ S → ClosedIn σ' S'
  typed : es = [] → ∀ τ U, Sees σ' S' τ U → W.TypedTop τ U last ts S.locals a S'.locals
  again : es = [] → ∀ τ U, Sees σ' S' τ U → W.Recalls τ → ∀ errors,
    inferStatements W.ctx W.answer errors last ts (τ, S) = some ((errors, a), τ, S')

/-- What comes after a statement. -/
def following (W : World) (visit : SpecId → Infer TypeId) (errors : List TypeError)
    (ts : List Term) : Except TypeError TypeId → ScopeRun (List TypeError × TypeId)
  | .ok a => inferStatements W.ctx visit errors a ts
  | .error e => inferStatements W.ctx visit (errors ++ [e]) .never ts

theorem inferStatements_cons {t : Term} {ts : List Term} {last : TypeId} {errors : List TypeError}
    {r : Except TypeError TypeId}
    (hx : InferIn.inferTerm W.ctx visit t (σ, S) = some (r, σ', S')) :
    inferStatements W.ctx visit errors last (t :: ts) (σ, S) =
      W.following visit errors ts r (σ', S') := by
  have : inferStatements W.ctx visit errors last (t :: ts) =
      ((InferIn.inferTerm W.ctx visit t).run >>= W.following visit errors ts) := by
    simp only [inferStatements]
    congr 1
  rw [this]
  show (InferIn.inferTerm W.ctx visit t (σ, S) >>= fun p =>
    W.following visit errors ts p.1 p.2) = _
  rw [hx]
  rfl

/-- Typing top-level statements. -/
theorem inferStatements_safe (hv : W.Visits σ₀ visit) {ts : List Term}
    (hk : ∀ t ∈ ts, t.Every W.Known) (h : W.At σ S) (h₀ : W.Extends σ₀ σ) {last : TypeId}
    (hl : σ.types.Values W.classes last) (errors : List TypeError) :
    ∃ es a σ' S', inferStatements W.ctx visit errors last ts (σ, S) =
      some ((errors ++ es, a), σ', S') ∧ W.Stated σ S last ts es a σ' S' := by
  induction ts generalizing σ S last errors with
  | nil =>
    refine ⟨[], last, σ, S, by rw [List.append_nil]; rfl, h, .refl h, hl, by simp, fun _ h => h,
      fun _ τ U _ => ⟨rfl, rfl⟩, fun _ τ U _ _ _ => rfl⟩
  | cons t ts ih =>
    obtain ⟨r, σ₁, S₁, hx, h₁, hto₁, hend⟩ := inferTerm_safe hv (hk t (.head _)) h h₀
    rw [inferStatements_cons hx]
    have rest {last : TypeId} (hl : σ₁.types.Values W.classes last) (errors : List TypeError) :=
      ih (fun u hu => hk u (.tail _ hu)) h₁ (h₀.trans hto₁.extend) hl errors
    cases r with
    | error e =>
      obtain ⟨es, a, σ', S', hrun, hs⟩ := rest (.never h₁.ok.types) (errors ++ [e])
      refine ⟨e :: es, a, σ', S', ?_, hs.fine, hto₁.trans hs.step, hs.values, ?_, nofun, nofun, nofun⟩
      · rw [following, hrun, List.append_assoc]
        rfl
      · intro e' he'
        rcases List.mem_cons.1 he' with rfl | he'
        · exact hend
        · exact hs.excused e' he'
    | ok b =>
      obtain ⟨⟨hbv, _, hT⟩, hcl, hagain⟩ := hend
      obtain ⟨es, a, σ', S', hrun, hs⟩ := rest hbv errors
      refine ⟨es, a, σ', S', hrun, hs.fine, hto₁.trans hs.step, hs.values, hs.excused,
        fun he hc => hs.closed he (hcl hc), fun he τ U hsees => ?_,
        fun he τ U hsees hrec errors => ?_⟩
      · exact ⟨b, S₁.locals, hT τ U (hs.step.sees hsees), hs.typed he τ U hsees⟩
      · rw [inferStatements_cons (hagain τ U (hs.step.sees hsees) hrec)]
        exact hs.again he τ U hsees hrec errors

/-- What typing the top level from `σ` on has found, in the end in the state `σ'` and the scope
`U`. -/
structure Found (W : World) (σ σ' : State) (top : TopResult) (U : Scope) : Prop where
  ok : W.Ok σ'
  extend : W.Extends σ σ'
  body : U.body = top.body
  self : U.self = none
  selfClass : U.selfClass = none
  scope : W.ScopeOk σ' U
  type : σ'.types.Values W.classes top.type
  excused : ∀ e ∈ top.errors, W.Excused e
  closed : top.errors = [] → Closed σ → ClosedIn σ' U
  typed : top.errors = [] → σ'.changed = false → ∀ τ, Later σ' τ (CalledBy top.body) →
    ∃ a, W.TypedTop τ U .nil W.ctx.main ∅ a U.locals ∧ τ.types.Joins a U.returns top.type
  again : top.errors = [] → σ'.changed = false → ∀ τ, Later σ' τ (CalledBy top.body) →
    W.Recalls τ → W.answer = Infer.visit W.ctx (nestingBound W.ctx τ) →
    inferTop W.ctx τ = some (top, τ)

theorem scopeOk_empty (h : W.Ok σ) : W.ScopeOk σ {} where
  self a ha := by cases ha
  selfClass c hc := by cases hc
  locals n a ha := by simp at ha
  returns := .never h.types
  exprTypes e a ha := by simp at ha
  rows := .empty

/-- What is seen of the state and the scope in which the typing of the top level ends. -/
theorem sees_end (h : W.ScopeOk σ S) (hc : σ.changed = false)
    (hl : Later σ τ (CalledBy S.body)) : Sees σ S τ S where
  unchanged := hc
  later := hl
  records :=
    { self := rfl
      selfClass := rfl
      exprTypes := fun e a ha => ⟨a, ha, .refl ((h.exprTypes e a ha).1.mono hl.types)⟩
      rows := fun _ _ _ _ hf => hf
      returns := .refl (h.returns.1.mono hl.types) }

theorem nestingBound_tree (h : W.Ok σ) :
    nestingBound W.ctx σ = nestingBound W.ctx { types := .initial, hierarchy := W.tree } := by
  simp only [nestingBound, h.size_eq]
  rfl

/-- The last step of typing the top level. -/
theorem inferTop_eq {ts : List TypeError × TypeId}
    (hx : inferStatements W.ctx (Infer.visit W.ctx (nestingBound W.ctx σ)) [] .nil W.ctx.main
      (σ, {}) = some (ts, σ', S')) : inferTop W.ctx σ =
        some (⟨S'.body, (TypeTable.union ts.2 S'.returns σ'.types).1, ts.1⟩,
          { σ' with types := (TypeTable.union ts.2 S'.returns σ'.types).2 }) := by
  unfold inferTop
  simp only [hx]
  rfl

/-- Typing the top level. -/
theorem inferTop_safe (h : W.Ok σ) :
    ∃ top σ' U, inferTop W.ctx σ = some (top, σ') ∧ W.Found σ σ' top U := by
  obtain ⟨es, a, σ₁, S₁, hrun, hs⟩ := inferStatements_safe (visits_visit h) W.main_known
    ⟨h, scopeOk_empty h⟩ (.refl h) (.nil h.types W.five_le) []
  rw [List.nil_append] at hrun
  have h₁ := hs.fine
  have hj := union_joins h₁.ok.types hs.values.1 h₁.scope.returns.1
  obtain ⟨h', he'⟩ := Extends.of_types h₁.ok hj.wf hj.le
  have hscope := h₁.scope.extend h₁.ok he'
  have hv' := hs.values.mono h₁.ok.types he'.types
  refine ⟨_, _, S₁, inferTop_eq hrun, h', hs.step.extend.trans he', rfl, hs.step.records.self,
    hs.step.records.selfClass, hscope, .of_joins hj.post hv' hscope.returns, hs.excused,
    fun he hc => ?_, fun he hch τ hl => ?_, fun he hch τ hl hrec hans => ?_⟩
  · refine hs.closed he ⟨hc, fun e r c callee hf => ?_⟩
    simp [Body.dispatchAt, DispatchTable.find?_empty] at hf
  · have hsees := sees_end h₁.scope (he'.unchanged hch) (he'.later hch _ hl)
    exact ⟨a, hs.typed he τ S₁ hsees, hj.post.mono hl.types⟩
  · have hsees := sees_end h₁.scope (he'.unchanged hch) (he'.later hch _ hl)
    have hagain := hs.again he τ S₁ hsees hrec []
    rw [hans] at hagain
    rw [inferTop_eq hagain, hj.again τ.types hl.wf hl.types]
    subst he
    rfl

/-! ## Passes -/

/-- The state in which a pass begins. -/
def passing (σ : State) (n : Nat) : State := { σ with pass := n, changed := false }

theorem Ok.passing (h : W.Ok σ) {n : Nat}
    (hn : ∀ s i p, σ.specs.get? s = some i → i.donePass = some p → p < n) :
    W.Ok (passing σ n) where
  types := h.types
  described := h.described
  tree := h.tree
  ivars := h.ivars
  keys := h.keys
  returns := h.returns
  recent s i p hi hp := (hn s i p hi hp).le
  rows s i hi :=
    (h.rows s i hi).mono h.types (h.keys s i hi).receiver_has (le_refl _) fun _ _ h => h
  settled s i hi _ hp := absurd (hn s i n hi hp) (Nat.lt_irrefl n)

theorem closed_passing {n : Nat}
    (hn : ∀ s i p, σ.specs.get? s = some i → i.donePass = some p → p < n) :
    Closed (passing σ n) :=
  fun s i hi _ hp => absurd (hn s i n hi hp) (Nat.lt_irrefl n)

/-- No state is heavier. -/
def heaviest (W : World) : Nat :=
  let c := 2 * W.classes
  let n := nestingBound W.ctx { types := .initial, hierarchy := W.tree }
  n + n * c + W.classes * (W.names.card * c)

theorem Ok.weight_le_heaviest (h : W.Ok σ) : W.weight σ ≤ W.heaviest := by
  have hsize : σ.specs.size ≤ nestingBound W.ctx { types := .initial, hierarchy := W.tree } :=
    nestingBound_tree h ▸ h.size_le
  have hreturns : ∑ s ∈ Finset.range σ.specs.size,
      (σ.types.members (σ.returnType ⟨s⟩)).length ≤ σ.specs.size * (2 * W.classes) := by
    refine (Finset.sum_le_card_nsmul _ _ (2 * W.classes) fun s _ =>
      (h.returnType_values ⟨s⟩).length_le h.types).trans ?_
    rw [Finset.card_range, smul_eq_mul]
  have hivars : ∑ c ∈ Finset.range W.classes, ∑ n ∈ W.names,
      (σ.types.members (σ.ivarType ⟨c⟩ n)).length ≤
        W.classes * (W.names.card * (2 * W.classes)) := by
    refine (Finset.sum_le_card_nsmul _ _ (W.names.card * (2 * W.classes)) fun c _ => ?_).trans ?_
    · refine (Finset.sum_le_card_nsmul _ _ (2 * W.classes) fun n _ =>
        (h.ivarType_values ⟨c⟩ n).length_le h.types).trans ?_
      rw [smul_eq_mul]
    · rw [Finset.card_range, smul_eq_mul]
  have := Nat.mul_le_mul_right (2 * W.classes) hsize
  simp only [weight, heaviest]
  omega

theorem mem_addErrors {known es : List TypeError} {e : TypeError} :
    e ∈ addErrors known es ↔ e ∈ known ∨ e ∈ es := by
  induction es generalizing known with
  | nil => simp [addErrors]
  | cons e' es ih =>
    rw [addErrors, ih]
    split
    · rename_i hc
      rw [List.contains_iff_mem] at hc
      constructor
      · rintro (h | h)
        · exact .inl h
        · exact .inr (.tail _ h)
      · rintro (h | h)
        · exact .inl h
        · rcases List.mem_cons.1 h with rfl | h
          · exact .inl hc
          · exact .inr h
    · simp only [List.mem_append, List.mem_cons, or_assoc]
      tauto

theorem runPass_eq {r : Passes} {top : TopResult}
    (hx : inferTop W.ctx (passing σ r.count) = some (top, σ')) :
    runPass W.ctx r σ = some ({
      count := r.count + 1, errors := addErrors r.errors top.errors
      converged := !σ'.changed, last := some top }, σ') := by
  show (inferTop W.ctx (passing σ r.count) >>= fun p => _) = _
  rw [hx]
  rfl

/-- No evaluation is under way, and nothing is frozen. -/
def AllIdle (σ : State) : Prop := ∀ s i, σ.specs.get? s = some i → i.stage = .idle

theorem AllIdle.extend (h : AllIdle σ) (he : W.Extends σ σ') : AllIdle σ' := fun s j hj => by
  cases hi : σ.specs.get? s with
  | none => exact he.fresh s j hi hj
  | some i => exact (he.stage s i j hi hj).trans (h s i hi)

/-- Some passes, from `σ` on: they end, and the last one has found what is true of the final state,
if it has changed nothing. -/
theorem runPasses_safe (left : Nat) {r : Passes} (h : W.Ok σ) (hidle : AllIdle σ)
    (hn : ∀ s i p, σ.specs.get? s = some i → i.donePass = some p → p < r.count)
    (hr : r.converged = false) (he : ∀ e ∈ r.errors, W.Excused e) :
    ∃ r' σ', runPasses W.ctx left r σ = some (r', σ') ∧ W.Ok σ' ∧ σ.types ≤ σ'.types ∧ AllIdle σ' ∧
      (∀ e ∈ r'.errors, W.Excused e) ∧
      (W.heaviest < left + W.weight σ → r'.converged = true) ∧
      (r'.converged = true → σ'.changed = false ∧ ∃ top σ₁ U,
        r'.last = some top ∧ Closed σ₁ ∧ W.Found σ₁ σ' top U ∧
        ∀ e ∈ top.errors, e ∈ r'.errors) := by
  induction left generalizing σ r with
  | zero =>
    refine ⟨r, σ, rfl, h, le_refl _, hidle, he, fun hlt => ?_, fun hc => by simp [hr] at hc⟩
    have := h.weight_le_heaviest
    omega
  | succ left ih =>
    have h₁ : W.Ok (World.passing σ r.count) := h.passing hn
    obtain ⟨top, σ', U, hrun, hf⟩ := inferTop_safe h₁
    have hpass : σ'.pass = r.count := hf.extend.pass
    have hidle' : AllIdle σ' := AllIdle.extend (σ := World.passing σ r.count) hidle hf.extend
    set r₁ : Passes := {
      count := r.count + 1, errors := addErrors r.errors top.errors
      converged := !σ'.changed, last := some top } with hr₁
    have he₁ : ∀ e ∈ r₁.errors, W.Excused e := fun e h =>
      (mem_addErrors.1 h).elim (he e) (hf.excused e)
    have hstep : runPasses W.ctx (left + 1) r σ =
        (if r₁.converged then pure r₁ else runPasses W.ctx left r₁ : Run Passes) σ' := by
      simp only [runPasses]
      show (runPass W.ctx r σ >>= fun p => _) = _
      rw [runPass_eq hrun]
      rfl
    rw [hstep]
    by_cases hc : r₁.converged = true
    · rw [if_pos hc]
      refine ⟨r₁, σ', rfl, hf.ok, hf.extend.types, hidle', he₁, fun _ => hc,
        fun _ => ⟨by simpa [hr₁] using hc, top, _, U,
        rfl, closed_passing hn, hf, fun e he => mem_addErrors.2 (.inr he)⟩⟩
    · rw [if_neg hc]
      obtain ⟨r', σ'', hrun', hok', htypes, hidle'', he', hconv, hlast⟩ := ih hf.ok hidle'
        (fun s i p hi hp => Nat.lt_succ_of_le ((hf.ok.recent s i p hi hp).trans_eq hpass))
        (by simpa using hc) he₁
      refine ⟨r', σ'', hrun', hok', le_trans hf.extend.types htypes, hidle'', he',
        fun hlt => hconv ?_, hlast⟩
      have hw : W.weight σ < W.weight σ' :=
        (hf.extend.weight_lt (by simpa [hr₁] using hc)).resolve_left nofun
      omega

/-! ## The whole inference -/

/-- The state in which no specialization changes any more. -/
def frozen (σ : State) : State := { σ with specs := σ.specs.freezeAll }

theorem donePass_freeze (i : Specialization) : i.freeze.donePass = i.donePass := by
  unfold Specialization.freeze
  split <;> rfl

theorem body_freeze (i : Specialization) : i.freeze.body = i.body := by
  unfold Specialization.freeze
  split <;> rfl

theorem get?_frozen {s : SpecId} {j : Specialization}
    (h : (frozen σ).specs.get? s = some j) : ∃ i, σ.specs.get? s = some i ∧ j = i.freeze := by
  rw [show (frozen σ).specs.get? s = _ from Specializations.get?_freezeAll] at h
  obtain ⟨i, hi, rfl⟩ := Option.map_eq_some_iff.1 h
  exact ⟨i, hi, rfl⟩

theorem frozen_keeps (σ : State) : σ.specs.Keeps (frozen σ).specs := fun key s hs => by
  obtain ⟨i, hi, hk⟩ := Specializations.find?_eq_some.1 hs
  refine Specializations.find?_eq_some.2 ⟨i.freeze, ?_, i.key_freeze.trans hk⟩
  rw [show (frozen σ).specs.get? s = _ from Specializations.get?_freezeAll, hi]
  rfl

theorem Ok.frozen (h : W.Ok σ) : W.Ok (frozen σ) where
  types := h.types
  described := h.described
  tree := h.tree
  ivars := h.ivars
  keys s j hj := by
    obtain ⟨i, hi, rfl⟩ := get?_frozen hj
    rw [i.key_freeze]
    exact h.keys s i hi
  returns s j hj := by
    obtain ⟨i, hi, rfl⟩ := get?_frozen hj
    unfold Specialization.freeze
    split
    · exact h.returns s i hi
    · dsimp only
      split
      · exact Values.nil h.types W.five_le
      · exact h.returns s i hi
  recent s j p hj hp := by
    obtain ⟨i, hi, rfl⟩ := get?_frozen hj
    exact h.recent s i p hi (donePass_freeze i ▸ hp)
  rows s j hj := by
    obtain ⟨i, hi, rfl⟩ := get?_frozen hj
    rw [i.key_freeze, body_freeze]
    exact (h.rows s i hi).mono h.types (h.keys s i hi).receiver_has (le_refl _) (frozen_keeps σ)
  settled s j hj hidle := by
    obtain ⟨i, hi, rfl⟩ := get?_frozen hj
    rw [Specialization.stage_freeze] at hidle
    cases hidle

/-- A frozen state answers visits with what is stored. -/
theorem recalls_frozen (σ : State) {n : Nat} (h : W.answer = Infer.visit W.ctx n) :
    W.Recalls (World.frozen σ) := fun s j hj => by
  obtain ⟨i, -, rfl⟩ := get?_frozen hj
  rw [h]
  cases n with
  | zero => exact visitWith_stored hj (.inl i.stage_freeze)
  | succ n => exact visitWith_stored hj (.inl i.stage_freeze)

theorem infer_eq {r : Passes} {top : TopResult} {σ₁ σ₂ : State}
    (hr : runPasses W.ctx W.ctx.limits.passes {} σ = some (r, σ₁))
    (ht : inferTop W.ctx (frozen σ₁) = some (top, σ₂)) :
    infer W.ctx σ = some ((r, top), frozen σ₂) := by
  show (runPasses W.ctx W.ctx.limits.passes {} σ >>= fun p =>
    inferTop W.ctx (frozen p.2) >>= fun q => some ((p.1, q.1), frozen q.2)) = _
  rw [hr]
  show (inferTop W.ctx (frozen σ₁) >>= fun q => some ((r, q.1), frozen q.2)) = _
  rw [ht]
  rfl

/-- What inferring a whole program gives: `σ₁` is the state in which the passes end and `σ₂` the one
in which the top level has been typed once more. -/
structure Inferred (W : World) (σ : State) (r : Passes) (top : TopResult) (σ₁ σ₂ : State)
    (U : Scope) : Prop where
  passed : W.Ok σ₁
  types : σ.types ≤ σ₁.types
  idle : AllIdle σ₁
  excused : ∀ e ∈ r.errors, W.Excused e
  converged : W.heaviest < W.ctx.limits.passes → r.converged = true
  last : r.converged = true → σ₁.changed = false ∧ ∃ last σ₀ U₀,
    r.last = some last ∧ Closed σ₀ ∧ W.Found σ₀ σ₁ last U₀ ∧ ∀ e ∈ last.errors, e ∈ r.errors
  found : W.Found (frozen σ₁) σ₂ top U

section
variable {r : Passes} {top : TopResult} {σ₁ σ₂ : State} (hi : W.Inferred σ r top σ₁ σ₂ U)
include hi

theorem Inferred.ok : W.Ok (frozen σ₂) := hi.found.ok.frozen

theorem Inferred.rows : W.RowsOk (frozen σ₂) none top.body := by
  have hrows := hi.found.scope.rows
  rw [hi.found.self, hi.found.body] at hrows
  exact hrows.mono hi.found.ok.types nofun (le_refl _) (frozen_keeps σ₂)

/-- In the end everything has been found to return. -/
theorem Inferred.returns {s : SpecId} {j : Specialization}
    (hj : (frozen σ₂).specs.get? s = some j) : j.stage = .frozen ∧ j.returnType ≠ .never := by
  obtain ⟨i, hi₂, rfl⟩ := get?_frozen hj
  refine ⟨i.stage_freeze, ?_⟩
  by_cases hstage : i.stage = .frozen
  · -- It was frozen after the passes, and can only have come to return more since.
    rw [Specialization.freeze, if_pos hstage]
    intro hn
    cases hf : (frozen σ₁).specs.get? s with
    | none =>
      have := hi.found.extend.fresh s i hf hi₂
      rw [hstage] at this
      cases this
    | some k =>
      obtain ⟨i', hi', -, hin⟩ := hi.found.extend.specs s k hf
      cases hi₂.symm.trans hi'
      rw [hn] at hin
      obtain ⟨l, hl, rfl⟩ := get?_frozen hf
      exact Specialization.returnType_freeze (by rw [hi.idle s l hl]; nofun)
        (hin.eq_never hi.found.ok.types)
  · exact Specialization.returnType_freeze fun h => absurd h hstage

end

theorem infer_safe (h : W.Ok σ) (hspecs : ∀ s, σ.specs.get? s = none) :
    ∃ r top σ₁ σ₂ U, runPasses W.ctx W.ctx.limits.passes {} σ = some (r, σ₁) ∧
      inferTop W.ctx (frozen σ₁) = some (top, σ₂) ∧ W.Inferred σ r top σ₁ σ₂ U := by
  obtain ⟨r, σ₁, hrun, hok, htypes, hidle, he, hconv, hlast⟩ :=
    runPasses_safe W.ctx.limits.passes (r := {}) h (fun s i hi => by simp [hspecs s] at hi)
      (fun s i p hi => by simp [hspecs s] at hi) rfl (by simp)
  obtain ⟨top, σ₂, U, htop, hf⟩ := inferTop_safe hok.frozen
  exact ⟨r, top, σ₁, σ₂, U, hrun, htop, hok, htypes, hidle, he,
    fun hlt => hconv (hlt.trans_le (Nat.le_add_right _ _)), hlast, hf⟩

end World

end Multimethod
