import Multimethod.Proofs.Evolution.Term
import Mathlib.Logic.Relation

/-!
# Visits let states evolve

A specialization is evaluated in rounds: each round types the body once, stores what it has found,
and calls for another round if the stored return type has become wider although it had been answered
meanwhile (`Infer.widen_course`). The rounds concern the specialization itself; all others that are
under way wait for them. So visits let states evolve (`Infer.visit_course`).
-/

namespace Multimethod

open Inference TypeTable

namespace Inference

variable {ctx : Context} {own : Option SpecId} {σ σ' : State} {s : SpecId} {i : Specialization}

/-- Opening a scope, and handing on what it has recorded in the end. -/
theorem Course.within {α : Type} {S : Scope} {x : InferIn α} {P : α → State × Scope → Prop}
    (hx : Course (EvolvesIn ctx) (σ, S) x P) :
    Course (State.Evolves ctx none) σ (Infer.within S x) fun r σ' => P r.1 (σ', r.2) := by
  intro r σ' hr
  change (x (σ, S) >>= fun p => some (p.1.map fun a => (a, p.2.2), p.2.1)) = _ at hr
  obtain ⟨⟨r', σ₁, S₁⟩, hx', hr⟩ := Option.bind_eq_some_iff.1 hr
  cases hr
  obtain ⟨he, hok⟩ := hx _ _ hx'
  refine ⟨he.state, fun a ha => ?_⟩
  cases r' with
  | error e => cases ha
  | ok b =>
    cases ha
    exact hok b rfl

/-! ## Changing what is known of a specialization -/

/-- The flag for changes means nothing here. -/
theorem State.Evolves.flagged (h : σ.Evolves ctx own σ') (changed : Bool) :
    σ.Evolves ctx own { σ' with changed } :=
  { h with described := { h.described with } }

section
variable {f : Specialization → Specialization} {hf : ∀ i, (f i).key = i.key}

theorem State.Described.changing (D : σ.Described ctx)
    (hr : ∀ i, σ.specs.get? s = some i → σ.types.Has (f i).returnType) :
    (World.changing σ s f hf).Described ctx := by
  have cases {s' : SpecId} {j : Specialization}
      (hj : (World.changing σ s f hf).specs.get? s' = some j) :
      (∃ i, σ.specs.get? s = some i ∧ j = f i) ∨ σ.specs.get? s' = some j := by
    rw [World.get?_changing] at hj
    split at hj
    · obtain ⟨i, hi, rfl⟩ := Option.map_eq_some_iff.1 hj
      exact .inl ⟨i, hi, rfl⟩
    · exact .inr hj
  refine { D with receivers := fun s' j hj => ?_, args := fun s' j hj => ?_,
                  returns := fun s' j hj => ?_ }
  · obtain ⟨i, hi, rfl⟩ | hj := cases hj
    · rw [hf]
      exact D.receivers s i hi
    · exact D.receivers s' j hj
  · obtain ⟨i, hi, rfl⟩ | hj := cases hj
    · rw [hf]
      exact D.args s i hi
    · exact D.args s' j hj
  · obtain ⟨i, hi, rfl⟩ | hj := cases hj
    · exact hr i hi
    · exact D.returns s' j hj

theorem State.Described.starting (D : σ.Described ctx) (s : SpecId) :
    (World.starting σ s).Described ctx :=
  D.changing fun i hi => D.returns s i hi

/-- A change to a specialization that is under way lets a state evolve, if what it returns gets
wider at most; it has to wait unless it is the one whose evaluation goes on. -/
theorem State.Evolves.changing (D : σ.Described ctx) (hi : σ.specs.get? s = some i)
    (hrun : i.stage = .running) (hstage : ∀ i, (f i).stage = i.stage)
    (hin : σ.types.Inside i.returnType (f i).returnType) (hw : own ≠ some s → Waits i (f i)) :
    σ.Evolves ctx own (World.changing σ s f hf) := by
  have hget := World.get?_changing (σ := σ) (s := s) hf
  have at_self {j : Specialization} (hj : (World.changing σ s f hf).specs.get? s = some j) :
      j = f i := by
    rw [hget, if_pos rfl, hi] at hj
    exact (Option.some.inj hj).symm
  refine { types := le_refl _, ivars := D.grows_refl.ivars, specs := fun s' j hj => ?_
           described := ?_, pass := rfl, later := ?_, fresh := fun s' k hn hk => ?_
           stage := fun s' j k hj hk => ?_, waits := fun s' j k hs hj hk _ => ?_ }
  · by_cases hs : s' = s
    · subst hs
      cases hi.symm.trans hj
      exact ⟨f i, by rw [hget, if_pos rfl, hi, Option.map_some], hf i, hin⟩
    · exact ⟨j, by rw [hget, if_neg hs, hj], rfl, .refl (D.returns s' j hj)⟩
  · refine D.changing fun i' hi' => ?_
    cases hi.symm.trans hi'
    exact hin.2.1
  · refine .modify hf (fun i hne => by rwa [hstage]) fun i' hi' => ?_
    cases hi.symm.trans hi'
    rw [hrun]
    nofun
  · by_cases hs : s' = s
    · subst hs
      cases hi.symm.trans hn
    · rw [hget, if_neg hs, hn] at hk
      cases hk
  · by_cases hs : s' = s
    · subst hs
      cases hi.symm.trans hj
      rw [at_self hk, hstage]
    · rw [hget, if_neg hs, hj] at hk
      cases hk
      rfl
  · by_cases hs' : s' = s
    · subst hs'
      cases hi.symm.trans hj
      rw [at_self hk]
      exact hw hs
    · rw [hget, if_neg hs', hj] at hk
      cases hk
      exact .refl j

end

/-- An evaluation from start to finish lets a state evolve, as others see it. -/
theorem State.Evolves.around (hi : σ.specs.get? s = some i)
    (hidle : i.stage = .idle) (h : (World.starting σ s).Evolves ctx (some s) σ')
    (pass : Option Nat) : σ.Evolves ctx own (World.finishing σ' s pass) := by
  -- The specialization is idle before and after; all others are as the evaluation left them.
  have hstart {s' : SpecId} (hs : s' ≠ s) :
      (World.starting σ s).specs.get? s' = σ.specs.get? s' := by
    rw [World.get?_starting, if_neg hs]
  have hstarted := World.get?_starting_self hi
  obtain ⟨j, hj, hkey, hin⟩ := h.specs s _ hstarted
  have hrun : j.stage = .running := h.stage s _ j hstarted hj
  have hfinished := World.get?_finishing_self hj pass
  have hfinish {s' : SpecId} (hs : s' ≠ s) :
      (World.finishing σ' s pass).specs.get? s' = σ'.specs.get? s' := by
    rw [World.get?_finishing, if_neg hs]
  refine { types := h.types, ivars := h.ivars, specs := fun s' k hk => ?_
           described := h.described.changing fun i' hi' => h.described.returns s i' hi'
           pass := h.pass, later := ?_, fresh := fun s' k hn hk => ?_
           stage := fun s' k l hk hl => ?_, waits := fun s' k l _ hk hl hrun' => ?_ }
  · by_cases hs : s' = s
    · subst hs
      cases hi.symm.trans hk
      exact ⟨_, hfinished, hkey, hin⟩
    · obtain ⟨l, hl, hrest⟩ := h.specs s' k ((hstart hs).trans hk)
      exact ⟨l, (hfinish hs).trans hl, hrest⟩
  · have hbegin : σ.specs.Later (World.starting σ s).specs := by
      refine .modify Specialization.key_running (fun _ _ => by nofun) fun i' hi' => ?_
      cases hi.symm.trans hi'
      rw [hidle]
      nofun
    have hend : σ'.specs.Later (World.finishing σ' s pass).specs := by
      refine .modify (f := fun i => { i with stage := .idle, donePass := pass }) (fun _ => rfl)
        (fun _ _ => by nofun) fun j' hj' => ?_
      cases hj.symm.trans hj'
      rw [hrun]
      nofun
    exact hbegin.trans (h.later.trans hend)
  · have hs : s' ≠ s := by
      rintro rfl
      cases hi.symm.trans hn
    exact h.fresh s' k ((hstart hs).trans hn) ((hfinish hs).symm.trans hk)
  · by_cases hs : s' = s
    · subst hs
      cases hi.symm.trans hk
      cases hfinished.symm.trans hl
      exact hidle.symm
    · exact h.stage s' k l ((hstart hs).trans hk) ((hfinish hs).symm.trans hl)
  · have hs : s' ≠ s := by
      rintro rfl
      cases hi.symm.trans hk
      rw [hidle] at hrun'
      cases hrun'
    exact h.waits s' k l (fun he => hs (Option.some.inj he).symm) ((hstart hs).trans hk)
      ((hfinish hs).symm.trans hl) hrun'

/-- The same evaluations are under way. -/
theorem State.Evolves.running_iff (h : σ.Evolves ctx own σ') (s : SpecId) :
    (∃ j, σ'.specs.get? s = some j ∧ j.stage = .running) ↔
      ∃ i, σ.specs.get? s = some i ∧ i.stage = .running := by
  constructor
  · rintro ⟨j, hj, hrun⟩
    cases hi : σ.specs.get? s with
    | none => cases (h.fresh s j hi hj).symm.trans hrun
    | some i => exact ⟨i, rfl, (h.stage s i j hi hj).symm.trans hrun⟩
  · rintro ⟨i, hi, hrun⟩
    obtain ⟨j, hj, -⟩ := h.specs s i hi
    exact ⟨j, hj, (h.stage s i j hi hj).trans hrun⟩

end Inference

/-! ## Storing what an evaluation has found -/

theorem Specialization.key_answers (as : List TypeId) (i : Specialization) :
    { i with answers := as }.key = i.key := rfl

theorem Specialization.key_body (b : Body) (i : Specialization) :
    { i with body := b }.key = i.key := rfl

namespace World

variable {ctx : Context} {σ : State} {s : SpecId} {i : Specialization} {a : TypeId} {body : Body}

/-- The state in which a round begins. -/
def clearing (σ : State) (s : SpecId) : State :=
  changing σ s (fun i => { i with answers := [] }) (Specialization.key_answers [])

theorem get?_clearing (hi : σ.specs.get? s = some i) :
    (clearing σ s).specs.get? s = some { i with answers := [] } := by
  rw [clearing, get?_changing, if_pos rfl, hi]
  rfl

theorem clearing_evolves (D : σ.Described ctx) (hi : σ.specs.get? s = some i)
    (hrun : i.stage = .running) : σ.Evolves ctx (some s) (clearing σ s) :=
  .changing D hi hrun (fun _ => rfl) (.refl (D.returns s i hi)) fun h => absurd rfl h

/-- What a specialization is known to return after an evaluation with result `a`. -/
def joined (σ : State) (s : SpecId) (a : TypeId) : TypeId :=
  (TypeTable.union (σ.returnType s) a σ.types).1

/-- The state after a round whose evaluation had the result `a`. -/
def storing (σ : State) (s : SpecId) (a : TypeId) (body : Body) : State :=
  let types := (TypeTable.union (σ.returnType s) a σ.types).2
  let σ' := changing { σ with types } s (fun i => { i with body }) (Specialization.key_body body)
  if joined σ s a = σ.returnType s then σ' else widening σ' s (joined σ s a)

theorem types_storing : (storing σ s a body).types =
    (TypeTable.union (σ.returnType s) a σ.types).2 := by
  unfold storing
  split <;> rfl

theorem get?_storing (hi : σ.specs.get? s = some i) (a : TypeId) (body : Body) :
    (storing σ s a body).specs.get? s =
      some { i with body, returnType := joined σ s a } := by
  set σ' := changing { σ with types := (TypeTable.union (σ.returnType s) a σ.types).2 } s
    (fun i => { i with body }) with hσ'
  have hi' : σ'.specs.get? s = some { i with body } := by
    rw [hσ', get?_changing, if_pos rfl]
    exact congrArg (Option.map _) hi
  unfold storing
  split
  · rename_i hw
    rw [hw, State.returnType, hi]
    exact hi'
  · exact (get?_widening hi' s).trans (if_pos rfl)

theorem storing_joins (D : σ.Described ctx) (hi : σ.specs.get? s = some i) (ha : σ.types.Has a) :
    (storing σ s a body).types.Joins i.returnType a (joined σ s a) := by
  have hret : σ.returnType s = i.returnType := by rw [State.returnType, hi]; rfl
  rw [types_storing, joined, hret]
  exact (union_joins D.types (D.returns s i hi) ha).post

/-- Storing what an evaluation has found lets a state evolve. -/
theorem storing_evolves (D : σ.Described ctx) (hi : σ.specs.get? s = some i)
    (hrun : i.stage = .running) (ha : σ.types.Has a) (body : Body) :
    σ.Evolves ctx (some s) (storing σ s a body) := by
  have hret : σ.returnType s = i.returnType := by rw [State.returnType, hi]; rfl
  have hs := union_joins D.types (hret ▸ D.returns s i hi) ha
  set σ₁ : State := { σ with types := (TypeTable.union (σ.returnType s) a σ.types).2 }
  have h₁ : σ.Evolves ctx (some s) σ₁ := (State.Evolves.of_types D hs.wf hs.le).but _
  set σ₂ := changing σ₁ s (fun i => { i with body }) with hσ₂
  have h₂ : σ₁.Evolves ctx (some s) σ₂ :=
    .changing h₁.described hi hrun (fun _ => rfl) (.refl (h₁.described.returns s i hi))
      fun h => absurd rfl h
  have hi₂ : σ₂.specs.get? s = some { i with body } := by
    rw [hσ₂, get?_changing, if_pos rfl]
    exact congrArg (Option.map _) hi
  have hin : σ₂.types.Inside i.returnType (joined σ s a) := by
    rw [← hret]
    exact hs.post.left
  have h₃ : σ₂.Evolves ctx (some s) (changing σ₂ s (fun i => { i with returnType := joined σ s a })
      (Specialization.key_returnType _)) :=
    .changing h₂.described hi₂ hrun (fun _ => rfl) hin fun h => absurd rfl h
  unfold storing
  split
  · exact h₁.trans h₂
  · exact (h₁.trans h₂).trans (h₃.flagged true)

end World

namespace Infer

variable {ctx : Context} {visit : SpecId → Infer TypeId} {σ σ' ρ : State} {p : State × Scope}
  {s : SpecId} {key : SpecKey} {i : Specialization} {m : Method} {a : TypeId} {body : Body}

/-! ## Bodies -/

section
variable (hv : Visits ctx visit)
include hv

section
variable (hm : ctx.methods.get? key.method = some m)
include hm

theorem inferDefault_course (h : Fine ctx p) (hr : ∀ a ∈ key.receiver, p.1.types.Has a) (k : Nat)
    (param : Param) : Course (EvolvesIn ctx) p (inferDefault ctx visit m key k param)
      fun a q => q.1.types.Has a := by
  unfold inferDefault
  cases param.default with
  | none => exact .pure (.refl h) h.state.types.has_nil
  | some d =>
    refine (InferIn.inferTerm_course hv (ctx.term d) p h).bind fun a p₁ h₁ ha => ?_
    have D₁ := h₁.fine.state
    have hr₁ := fun b hb => (hr b hb).mono h₁.types
    have hrestriction := Method.restriction_settles D₁.types D₁.registry hm k hr₁
    refine (Course.onTypesIn h₁.fine hrestriction).bind fun r p₂ h₂ _ => ?_
    have ha₂ := ha.has.mono h₂.types
    cases r with
    | none => exact .pure (.refl h₂.fine) ha₂
    | some b =>
      refine Course.get (f := fun q : State × Scope => _) ?_
      dsimp only
      split
      · exact .pure (.refl h₂.fine) ha₂
      · exact .throw (.refl h₂.fine)

theorem bindParams_course (k : Nat) (params : List Param) (h : Fine ctx p)
    (hr : ∀ a ∈ key.receiver, p.1.types.Has a) (ha : ∀ a ∈ key.args, p.1.types.Has a) :
    Course (EvolvesIn ctx) p (bindParams ctx visit m key k params) fun _ _ => True := by
  induction params generalizing k p with
  | nil => exact .pure (.refl h) trivial
  | cons param params ih =>
    have rest (a : TypeId) (q : State × Scope) (hq : EvolvesIn ctx p q) (hb : q.1.types.Has a) :
        Course (EvolvesIn ctx) q (do
          InferIn.setLocal param.name a
          bindParams ctx visit m key (k + 1) params) fun _ _ => True := by
      refine (Course.setLocal hq.fine hb).bind fun _ q' hq' _ => ?_
      have hle := le_trans hq.types hq'.types
      exact ih (k + 1) hq'.fine (fun b hb => (hr b hb).mono hle) fun b hb => (ha b hb).mono hle
    simp only [bindParams]
    cases hk : key.args[k]? with
    | some a =>
      simp only [pure_bind]
      exact rest a p (.refl h) (ha a (List.mem_of_getElem? hk))
    | none => exact (inferDefault_course hv hm h hr k param).bind rest

theorem inferBody_course (h : Fine ctx p) (hr : ∀ a ∈ key.receiver, p.1.types.Has a)
    (ha : ∀ a ∈ key.args, p.1.types.Has a) :
    Course (EvolvesIn ctx) p (inferBody ctx visit m key) fun a q => q.1.types.Has a := by
  unfold inferBody
  refine (bindParams_course hv hm 0 _ h hr ha).bind fun _ p₁ h₁ _ => ?_
  refine (InferIn.inferTerm_course hv _ p₁ h₁.fine).bind fun a p₂ h₂ hfound => ?_
  set params : Scope → Scope := fun s => { s with body := { s.body with
    paramTypes := m.definition.params.map fun p => s.locals[p.name]?.getD .nil } }
  have hw : p₂.2.Widens p₂.1.types (params p₂.2) := { h₂.described.widens_refl with }
  have hd : (params p₂.2).Described p₂.1.types := { h₂.described with }
  refine (Course.modifyScope h₂.fine hw hd).bind fun _ p₃ h₃ _ => ?_
  refine .scope ((Course.unionIn h₃.fine (hfound.has.mono h₃.types) h₃.fine.scope.returns).mono
    fun b q _ hb => ?_)
  exact hb.1.left.2.1

end

/-- Evaluating the body of a specialization once. -/
theorem evaluate_course (D : σ.Described ctx) (hr : ∀ a ∈ key.receiver, σ.types.Has a)
    (ha : ∀ a ∈ key.args, σ.types.Has a) :
    Course (State.Evolves ctx none) σ (evaluate ctx visit key) fun r σ' => σ'.types.Has r.1 := by
  unfold evaluate
  split
  · exact .pure (.refl D) D.types.has_never
  · rename_i m hm
    refine Course.get (f := fun s : State => _) ?_
    have h : Fine ctx (σ, Scope.opened σ.types key) := by
      refine ⟨D, hr, fun n a hn => ?_, D.types.has_never, fun e a he => ?_⟩
      · simp [Scope.opened] at hn
      · simp [Scope.opened] at he
    refine (Course.within (inferBody_course hv hm h hr ha)).bind fun r σ₁ h₁ h => ?_
    exact .pure (.refl h₁.described) h

end

/-! ## Rounds -/

/-- A round leads from `σ` to `σ'`, and another one is called for. -/
def Again (ctx : Context) (visit : SpecId → Infer TypeId) (s : SpecId) (key : SpecKey)
    (σ σ' : State) : Prop :=
  ∃ a body ρ i, evaluate ctx visit key (World.clearing σ s) = some (.ok (a, body), ρ) ∧
    ρ.specs.get? s = some i ∧ i.answers ≠ [] ∧ World.joined ρ s a ≠ i.returnType ∧
    σ' = World.storing ρ s a body

/-- From `σ`, some rounds are followed by one that is the last. The type `t` that is stored then
takes in its result, and is what was answered meanwhile. -/
def Rests (ctx : Context) (visit : SpecId → Infer TypeId) (s : SpecId) (key : SpecKey)
    (σ : State) (t : TypeId) (σ' : State) : Prop :=
  ∃ ρ a body ρ' j, Relation.ReflTransGen (Again ctx visit s key) σ ρ ∧
    evaluate ctx visit key (World.clearing ρ s) = some (.ok (a, body), ρ') ∧
    σ' = World.storing ρ' s a body ∧ σ'.specs.get? s = some j ∧ j.body = body ∧
    j.returnType = t ∧ (∀ m ∈ ρ'.types.members a, m ∈ σ'.types.members t) ∧
    ∀ b ∈ j.answers, b = t

/-- A round that comes to an end begins with an evaluation that does. -/
theorem exists_evaluate {rounds : Nat} {r : Except TypeError TypeId}
    (hx : widen ctx visit s key (rounds + 1) σ = some (r, σ')) :
    ∃ r' ρ, evaluate ctx visit key (World.clearing σ s) = some (r', ρ) := by
  rw [widen, World.modifySpec_eq] at hx
  change (evaluate ctx visit key (World.clearing σ s) >>= fun p =>
    (ExceptT.bindCont _ p.1 : Run _) p.2) = _ at hx
  obtain ⟨⟨r', ρ⟩, hev, -⟩ := Option.bind_eq_some_iff.1 hx
  exact ⟨r', ρ, hev⟩

theorem widen_error {e : TypeError}
    (hev : evaluate ctx visit key (World.clearing σ s) = some (.error e, ρ)) (rounds : Nat) :
    widen ctx visit s key (rounds + 1) σ = some (.error e, ρ) := by
  rw [widen, World.modifySpec_eq]
  change (evaluate ctx visit key (World.clearing σ s) >>= fun p =>
    (ExceptT.bindCont _ p.1 : Run _) p.2) = _
  rw [hev]
  rfl

/-- A round is the last if the stored type stays as it is or was not answered meanwhile. -/
theorem widen_ok (hev : evaluate ctx visit key (World.clearing σ s) = some (.ok (a, body), ρ))
    (hi : ρ.specs.get? s = some i) (rounds : Nat) :
    widen ctx visit s key (rounds + 1) σ =
      if World.joined ρ s a = i.returnType ∨ i.answers = [] then
        some (.ok (World.joined ρ s a), World.storing ρ s a body)
      else widen ctx visit s key rounds (World.storing ρ s a body) := by
  have hret : ρ.returnType s = i.returnType := by rw [State.returnType, hi]; rfl
  have hunion : union (ρ.returnType s) a ρ = some (.ok (World.joined ρ s a),
      { ρ with types := (TypeTable.union (ρ.returnType s) a ρ.types).2 }) := rfl
  rw [widen, World.modifySpec_eq]
  refine (bind_ok hev).trans ((bind_ok (World.storedType_eq ρ s)).trans ?_)
  refine (bind_ok hunion).trans ((World.modifySpec_eq _).trans ?_)
  by_cases hw : World.joined ρ s a = ρ.returnType s
  · rw [if_pos hw, if_pos (Or.inl (hw.trans hret)), World.storing, if_pos hw, hw]
    rfl
  · have hstoring : World.storing ρ s a body = World.widening (World.changing
        { ρ with types := (TypeTable.union (ρ.returnType s) a ρ.types).2 } s
        fun i => { i with body }) s (World.joined ρ s a) := if_neg hw
    have hspec : spec? s (World.storing ρ s a body) =
        some (.ok (some { i with body, returnType := World.joined ρ s a }),
          World.storing ρ s a body) := by
      rw [← World.get?_storing hi]
      rfl
    rw [if_neg hw]
    refine (World.modifySpec_eq _).trans ?_
    refine (bind_ok (a := ()) (τ := World.storing ρ s a body) ?_).trans ((bind_ok hspec).trans ?_)
    · rw [hstoring]
      rfl
    · by_cases ha : i.answers = []
      · rw [if_pos (by simp [ha]), if_pos (Or.inr ha)]
        rfl
      · rw [if_neg (by simp [ha]), if_neg (by simp [ha, ← hret, hw])]

/-- While the body of a specialization is typed, what is known of it stays the same, and is what is
answered for it. -/
theorem evaluate_waits (hv : Visits ctx visit) (D : σ.Described ctx)
    (hi : σ.specs.get? s = some i) (hrun : i.stage = .running)
    {r : Except TypeError (TypeId × Body)}
    (hev : evaluate ctx visit i.key (World.clearing σ s) = some (r, ρ)) :
    σ.Evolves ctx (some s) ρ ∧ (∀ c, r = .ok c → ρ.types.Has c.1) ∧
      ∃ j, ρ.specs.get? s = some j ∧ j.key = i.key ∧ j.stage = .running ∧
        ∀ b ∈ j.answers, b = j.returnType := by
  have h := World.clearing_evolves D hi hrun
  have hget := World.get?_clearing hi
  obtain ⟨hρ, hok⟩ := evaluate_course hv h.described (h.described.receivers s _ hget)
    (h.described.args s _ hget) r ρ hev
  obtain ⟨j, hj, hkey, -⟩ := hρ.specs s _ hget
  have hnone : (none : Option SpecId) ≠ some s := fun h => by cases h
  obtain ⟨hret, n, hn⟩ := hρ.waits s _ j hnone hget hj hrun
  refine ⟨h.trans (hρ.but _), hok, j, hj, hkey, (hρ.stage s _ j hget hj).trans hrun, fun b hb => ?_⟩
  rw [hn, List.append_nil] at hb
  exact (List.eq_of_mem_replicate hb).trans hret.symm

/-- However many rounds there are, of the specializations under way only this one changes, and no
type was answered for it in the last round but the one that is stored then. -/
theorem widen_course (hv : Visits ctx visit) (rounds : Nat) (D : σ.Described ctx)
    (hi : σ.specs.get? s = some i) (hrun : i.stage = .running) :
    Course (State.Evolves ctx (some s)) σ (widen ctx visit s i.key rounds)
      (Rests ctx visit s i.key σ) := by
  generalize hkey : i.key = key
  induction rounds generalizing σ i with
  | zero =>
    intro r σ' hx
    obtain ⟨e, he⟩ : ∃ e, divergence ctx key σ = some (.ok e, σ) := ⟨_, rfl⟩
    rw [widen, bind_ok he] at hx
    cases hx
    exact ⟨.refl D, fun a ha => by cases ha⟩
  | succ rounds ih =>
    intro r σ' hx
    obtain ⟨r', ρ, hev⟩ := exists_evaluate hx
    obtain ⟨hρ, hok, j, hj, hkeyj, hrunj, hans⟩ := evaluate_waits hv D hi hrun (hkey ▸ hev)
    cases r' with
    | error e =>
      cases (widen_error hev rounds).symm.trans hx
      exact ⟨hρ, fun a ha => by cases ha⟩
    | ok c =>
      obtain ⟨a, body⟩ := c
      have ha : ρ.types.Has a := hok _ rfl
      have hstore := World.storing_evolves hρ.described hj hrunj ha body
      have he := hρ.trans hstore
      have hstored := World.get?_storing hj a body
      rw [widen_ok hev hj] at hx
      split at hx
      · rename_i hlast
        cases hx
        refine ⟨he, fun t ht => ?_⟩
        cases ht
        refine ⟨σ, a, body, ρ, _, .refl, hev, rfl, hstored, rfl, rfl, fun m hm => ?_,
          fun b hb => ?_⟩
        · rw [← ha.members_eq hstore.types] at hm
          exact (World.storing_joins hρ.described hj ha).right.2.2 m hm
        · -- Either the stored type was right all the time, or nothing was answered.
          obtain hw | hnone := hlast
          · exact (hans b hb).trans hw.symm
          · rw [hnone] at hb
            cases hb
      · rename_i hnot
        obtain ⟨hw, hne⟩ := not_or.1 hnot
        obtain ⟨he', hrests⟩ := ih he.described hstored hrunj (hkeyj.trans hkey) r σ' hx
        refine ⟨he.trans he', fun t ht => ?_⟩
        obtain ⟨τ, a', body', τ', k, hreach, hlast⟩ := hrests t ht
        exact ⟨τ, a', body', τ', k, .head ⟨a, body, ρ, j, hev, hj, hne, hw, rfl⟩ hreach, hlast⟩

/-! ## Visits -/

section
variable {run : SpecId → SpecKey → Infer TypeId}

theorem visitWith_absent (hs : σ.specs.get? s = none) :
    visitWith run s σ = some (.ok .never, σ) := by
  have hspec : spec? s σ = some (.ok none, σ) := by rw [← hs]; rfl
  unfold visitWith
  rw [bind_ok hspec]
  rfl

/-- A specialization that is idle and was not evaluated in this pass is evaluated. -/
theorem visitWith_evaluates (hi : σ.specs.get? s = some i) (hs : i.stage = .idle)
    (hnd : i.donePass ≠ some σ.pass) : visitWith run s σ =
      (run s i.key (World.starting σ s)).map fun p =>
        (p.1, World.finishing p.2 s (if p.1.isOk then some σ.pass else none)) := by
  cases hx : run s i.key (World.starting σ s) with
  | some p => exact World.visitWith_idle hi hs hnd hx
  | none =>
    have hspec : spec? s σ = some (.ok (some i), σ) := by rw [← hi]; rfl
    unfold visitWith
    rw [bind_ok hspec]
    simp only [hs]
    rw [bind_ok (a := σ) (τ := σ) rfl, if_neg hnd, World.modifySpec_eq]
    change (run s i.key (World.starting σ s) >>= _) >>= _ = _
    rw [hx]
    rfl

/-- If evaluations let states evolve, then visits do. -/
theorem visitWith_course (hrun : ∀ σ s i, σ.Described ctx → σ.specs.get? s = some i →
      i.stage = .running → Course (State.Evolves ctx (some s)) σ (run s i.key)
        fun a σ' => σ'.types.Has a) : Visits ctx (visitWith run) := by
  intro σ s D r σ' hx
  cases hi : σ.specs.get? s with
  | none =>
    cases (visitWith_absent hi).symm.trans hx
    exact ⟨.refl D, fun a ha => by cases ha; exact D.types.has_never⟩
  | some i =>
    have hret := D.returns s i hi
    have stored (hx' : visitWith run s σ = some (.ok i.returnType, σ)) :
        σ.Evolves ctx none σ' ∧ ∀ a, r = .ok a → σ'.types.Has a := by
      cases hx'.symm.trans hx
      exact ⟨.refl D, fun a ha => by cases ha; exact hret⟩
    cases hs : i.stage with
    | frozen => exact stored (World.visitWith_stored hi (.inl hs))
    | running =>
      cases (World.visitWith_running hi hs).symm.trans hx
      refine ⟨.changing D hi hs (fun _ => rfl) (.refl hret) fun _ => ⟨rfl, 1, rfl⟩, fun a ha => ?_⟩
      cases ha
      exact hret
    | idle =>
      by_cases hd : i.donePass = some σ.pass
      · exact stored (World.visitWith_stored hi (.inr ⟨hs, hd⟩))
      · rw [visitWith_evaluates hi hs hd] at hx
        obtain ⟨⟨r', τ⟩, hx', hx⟩ := Option.map_eq_some_iff.1 hx
        cases hx
        obtain ⟨he, hok⟩ := hrun _ s _ (D.starting s) (World.get?_starting_self hi) rfl r' τ hx'
        exact ⟨.around hi hs he _, hok⟩

end

/-- However deeply evaluations are nested, visits let states evolve. -/
theorem visit_course (ctx : Context) (depth : Nat) : Visits ctx (Infer.visit ctx depth) := by
  induction depth with
  | zero => exact visitWith_course fun _ _ _ _ _ _ _ _ hx => by cases hx
  | succ depth ih =>
    refine visitWith_course fun σ s i D hi hrun => (widen_course ih _ D hi hrun).mono ?_
    intro a σ' he h
    obtain ⟨-, -, -, -, j, -, -, -, hj, -, rfl, -⟩ := h
    exact he.described.returns s j hj

end Infer

end Multimethod
