import Multimethod.Proofs.Evolution.Visit
import Multimethod.Proofs.Registration

/-!
# What typing and visiting do to any state

Inference starts in a state that mentions no types but those that are described
(`Prepared.described`), and whatever it does leads to such a state again. From any of them, typing a
term only widens what the scope knows (`inferTerm_widens`), and a visit that evaluates leaves its
specialization settled, or to be evaluated again (`visit_settles`).
-/

namespace Multimethod

open Inference TypeTable

/-- A state that is fine mentions no types but those that are described. -/
theorem World.Ok.state_described {W : World} {σ : State} (h : W.Ok σ) : σ.Described W.ctx where
  types := h.types
  restrictions := h.described
  ivars c n a ha := (h.ivars c n a ha).1
  receivers s i hi := (h.keys s i hi).receiver_has
  args s i hi a ha := (Values.of_shape ((h.keys s i hi).args a ha)).1
  returns s i hi := (h.returns s i hi).1

theorem Prepared.described {names : NameTable} {source : Source} {limits : Limits}
    {es : List TypeError} {ctx : Context} {σ : State} (hk : Prepared names source limits es ctx σ) :
    σ.Described ctx :=
  (hk.ok Infer.storedType).state_described

namespace InferIn

/-- Typing a term from any state and scope only widens the scope: each local stays bound, to a type
with at least the members it had, what has been recorded of expressions and of early returns keeps
its members, and no dispatch row is lost. -/
theorem inferTerm_widens (ctx : Context) (depth : Nat) (t : Term) {σ σ' : State} {S S' : Scope}
    {a : TypeId} (D : σ.Described ctx) (hS : S.Described σ.types)
    (hx : inferTerm ctx (Infer.visit ctx depth) t (σ, S) = some (.ok a, σ', S')) :
    (∀ (n : Name) b, S.locals[n]? = some b → ∃ b', S'.locals[n]? = some b' ∧
      σ.types.members b ⊆ σ'.types.members b') ∧
    σ.types.members S.returns ⊆ σ'.types.members S'.returns ∧
    (∀ (e : ExprId) b, S.body.exprTypes[e]? = some b → ∃ b', S'.body.exprTypes[e]? = some b' ∧
      σ.types.members b ⊆ σ'.types.members b') ∧
    (∀ e receiver args callee, (S.body.dispatchAt e).find? receiver args = some callee →
      ∃ callee', (S'.body.dispatchAt e).find? receiver args = some callee') ∧
    S'.self = S.self ∧ S'.selfClass = S.selfClass := by
  obtain ⟨he, hok⟩ := inferTerm_course (Infer.visit_course ctx depth) t (σ, S) ⟨D, hS⟩ _ _ hx
  have subset {b b' : TypeId} (hb : σ.types.Has b) (hin : σ'.types.Inside b b') :
      σ.types.members b ⊆ σ'.types.members b' := by
    rw [← hb.members_eq he.types]
    exact hin.2.2
  refine ⟨fun n b hb => ?_, subset hS.returns he.scope.returns, fun e b hb => ?_,
    fun e r as callee hf => ?_, he.scope.self, he.scope.selfClass⟩
  · obtain ⟨b', hb', hin⟩ := (hok a rfl).locals n b hb
    exact ⟨b', hb', subset (hS.locals n b hb) hin⟩
  · obtain ⟨b', hb', hin⟩ := he.scope.exprTypes e b hb
    exact ⟨b', hb', subset (hS.exprTypes e b hb) hin⟩
  · exact Option.isSome_iff_exists.1 (he.scope.rows e r as (by rw [hf]; rfl))

/-- A loop that sets the local it tests to `nil`. -/
def clearing : Builder := ((do
  let clear ← Build.assign "x" (← Build.nil)
  Build.stmt (← Build.loop (← Build.var "x") clear) : Build Unit).run {}).2

/-- The locals before the loop. -/
def clearing.entry : Locals := (∅ : Locals).insert (NameTable.intern "x" clearing.names).1 .int

/-- If the local is an integer before the loop, it may be `nil` after it. -/
theorem inferTerm_widens_clearing : ∃ t σ a σ' S' b, ∃ x : Name,
    t ∈ (register clearing.names clearing.source {}).2.1.main ∧
    σ.Described (register clearing.names clearing.source {}).2.1 ∧
    Scope.Described σ.types { locals := clearing.entry } ∧
    inferTerm (register clearing.names clearing.source {}).2.1
      (Infer.visit (register clearing.names clearing.source {}).2.1 0) t
      (σ, { locals := clearing.entry }) = some (.ok a, σ', S') ∧
    clearing.entry[x]? = some .int ∧ S'.locals[x]? = some b ∧
    σ.types.members .int ⊆ σ'.types.members b ∧ TypeId.nil ∈ σ'.types.members b := by
  have D := (register_prepared clearing.names clearing.source {}).described
  have hS : Scope.Described (register clearing.names clearing.source {}).2.2.types
      { locals := clearing.entry } := by
    refine ⟨nofun, ?_, D.types.has_never, fun e a ha => by simp at ha⟩
    refine Locals.Described.insert (fun m b hb => by simp at hb) (D.types.has_initial ?_)
    decide
  obtain ⟨t, ht, p, hp, hok, hnil⟩ : ∃ t ∈ (register clearing.names clearing.source {}).2.1.main,
      ∃ p ∈ inferTerm (register clearing.names clearing.source {}).2.1
        (Infer.visit (register clearing.names clearing.source {}).2.1 0) t
        ((register clearing.names clearing.source {}).2.2, { locals := clearing.entry }),
      p.1.toBool = true ∧
        ∀ b ∈ p.2.2.locals[(NameTable.intern "x" clearing.names).1]?,
          TypeId.nil ∈ p.2.1.types.members b := by
    decide +kernel
  obtain ⟨r, σ', S'⟩ := p
  cases r with
  | error e => cases hok
  | ok a =>
    have hx : clearing.entry[(NameTable.intern "x" clearing.names).1]? = some .int :=
      Std.ExtTreeMap.getElem?_insert_self
    obtain ⟨b, hb, hsub⟩ := (inferTerm_widens _ 0 t D hS hp).1 _ _ hx
    exact ⟨t, _, a, σ', S', b, _, ht, D, hS, hp, hx, hb, hsub, hnil b hb⟩

end InferIn

namespace Infer

/-- A visit that evaluates a specialization, and ends, leaves the same evaluations under way as
before. If it answers a type, then that is the stored return type, the stored body is that of the
last evaluation, whose result has no other members, and whatever was answered for the specialization
during that evaluation was this type. If it fails, then the next visit evaluates it again.
(`World.visit_safe` says when visits end.) -/
theorem visit_settles (ctx : Context) (depth : Nat) {σ σ' : State} {s : SpecId} {i : Specialization}
    {r : Except TypeError TypeId} (D : σ.Described ctx) (hi : σ.specs.get? s = some i)
    (hidle : i.stage = .idle) (hnd : i.donePass ≠ some σ.pass)
    (hx : visit ctx (depth + 1) s σ = some (r, σ')) :
    (∀ s', (∃ j, σ'.specs.get? s' = some j ∧ j.stage = .running) ↔
      ∃ i', σ.specs.get? s' = some i' ∧ i'.stage = .running) ∧
    ∃ j, σ'.specs.get? s = some j ∧ j.key = i.key ∧ j.stage = .idle ∧
      match r with
      | .ok t => j.donePass = some σ.pass ∧ j.returnType = t ∧ (∀ b ∈ j.answers, b = t) ∧
        ∃ ρ a ρ', Relation.ReflTransGen (Again ctx (visit ctx depth) s i.key)
            (World.starting σ s) ρ ∧
          evaluate ctx (visit ctx depth) i.key (World.clearing ρ s) = some (.ok (a, j.body), ρ') ∧
          σ' = World.finishing (World.storing ρ' s a j.body) s (some σ.pass) ∧
          ρ'.types.members a ⊆ σ'.types.members t
      | .error _ => j.donePass = none ∧ ∀ depth' τ, τ.specs.get? s = some j →
        visit ctx (depth' + 1) s τ =
          (widen ctx (visit ctx depth') s i.key ctx.limits.wideningRounds (World.starting τ s)).map
            fun p => (p.1, World.finishing p.2 s (if p.1.isOk then some τ.pass else none)) := by
  refine ⟨(visit_course ctx (depth + 1) σ s D r σ' hx).1.running_iff, ?_⟩
  rw [visit, visitWith_evaluates hi hidle hnd] at hx
  obtain ⟨⟨r', τ⟩, hx', hx⟩ := Option.map_eq_some_iff.1 hx
  cases hx
  have hstarted := World.get?_starting_self hi
  obtain ⟨he, hrests⟩ :=
    widen_course (visit_course ctx depth) _ (D.starting s) hstarted rfl r' τ hx'
  obtain ⟨k, hk, hkey, -⟩ := he.specs s _ hstarted
  cases r' with
  | ok t =>
    obtain ⟨ρ, a, body, ρ', k', hreach, hev, rfl, hk', rfl, hret, hsub, hans⟩ := hrests t rfl
    cases hk.symm.trans hk'
    exact ⟨_, World.get?_finishing_self hk _, hkey, rfl, rfl, hret, hans, ρ, a, ρ', hreach, hev, rfl, hsub⟩
  | error e =>
    refine ⟨_, World.get?_finishing_self hk _, hkey, rfl, rfl, fun depth' υ hυ => ?_⟩
    rw [visit, visitWith_evaluates hυ rfl nofun]
    exact hkey ▸ rfl

/-- A function that returns a number, or else what it returns itself. -/
def descending : Builder := ((do
  let again ← Build.call none "down" []
  let body ← Build.cond (← Build.bool true) again (some (← Build.int 1))
  Build.function "down" [] body : Build Unit).run {}).2

/-- Its first evaluation is not the last, as it was answered that nothing is returned. -/
theorem visit_settles_descending : ∃ σ s i t σ' j,
    State.Described (register descending.names descending.source {}).2.1 σ ∧
    σ.specs.get? s = some i ∧ i.stage = .idle ∧ i.donePass ≠ some σ.pass ∧
    visit (register descending.names descending.source {}).2.1 1 s σ = some (.ok t, σ') ∧
    σ'.specs.get? s = some j ∧ j.returnType = t ∧ j.answers ≠ [] ∧ ∀ b ∈ j.answers, b = t := by
  obtain ⟨⟨r, σ⟩, hp, s, -, i, hi, hidle, hnd, ⟨r', σ'⟩, hx, hok, j, hj, hans⟩ :
      ∃ p ∈ specialize ⟨⟨0⟩, none, []⟩ (register descending.names descending.source {}).2.2,
        ∃ s ∈ p.1.toOption, ∃ i ∈ p.2.specs.get? s, i.stage = .idle ∧ i.donePass ≠ some p.2.pass ∧
          ∃ q ∈ visit (register descending.names descending.source {}).2.1 1 s p.2,
            q.1.toBool = true ∧ ∃ j ∈ q.2.specs.get? s, j.answers ≠ [] := by
    decide +kernel
  have D := (register_prepared descending.names descending.source {}).described
  obtain ⟨he, -⟩ := specialize_course D (fun a ha => by cases ha)
    (fun a ha => by cases ha) r σ hp
  have D' := he.described
  cases r' with
  | error e => cases hok
  | ok t =>
    obtain ⟨-, j', hj', -, -, -, hret, hsame, -⟩ := visit_settles _ 0 D' hi hidle hnd hx
    cases hj.symm.trans hj'
    exact ⟨σ, s, i, t, σ', j, D', hi, hidle, hnd, hx, hj, hret, hans, hsame⟩

end Infer

namespace Inference

/-! ## Whole inferences -/

variable {ctx : Context} {σ σ' : State}

/-- Typing top-level statements, whether or not some of them fail. -/
theorem inferStatements_evolves {visit : SpecId → Infer TypeId} (hv : Visits ctx visit)
    (ts : List Term) {p q : State × Scope} (h : Fine ctx p) {errors es : List TypeError}
    {last a : TypeId} (hlast : p.1.types.Has last)
    (hx : inferStatements ctx visit errors last ts p = some ((es, a), q)) :
    EvolvesIn ctx p q ∧ q.1.types.Has a := by
  induction ts generalizing p errors last with
  | nil =>
    cases hx
    exact ⟨.refl h, hlast⟩
  | cons t ts ih =>
    simp only [inferStatements] at hx
    obtain ⟨⟨r, p₁⟩, hx₁, hx⟩ := Option.bind_eq_some_iff.1 hx
    obtain ⟨h₁, hok⟩ := InferIn.inferTerm_course hv t p h r p₁ hx₁
    cases r with
    | ok b =>
      obtain ⟨h', ha⟩ := ih h₁.fine (hok b rfl).has hx
      exact ⟨h₁.trans h', ha⟩
    | error e =>
      -- What a statement has done before it failed stays done.
      obtain ⟨h', ha⟩ := ih h₁.fine h₁.fine.state.types.has_never hx
      exact ⟨h₁.trans h', ha⟩

theorem inferTop_evolves {top : TopResult} (D : σ.Described ctx)
    (hx : inferTop ctx σ = some (top, σ')) : σ.Evolves ctx none σ' := by
  obtain ⟨⟨⟨es, a⟩, σ₁, S₁⟩, hrun, hx⟩ := Option.bind_eq_some_iff.1 hx
  have h : Fine ctx (σ, {}) := by
    refine ⟨D, nofun, fun n a hn => ?_, D.types.has_never, fun e a he => ?_⟩
    · simp at hn
    · simp at he
  obtain ⟨h₁, ha⟩ :=
    inferStatements_evolves (Infer.visit_course ctx _) ctx.main h D.types.has_nil hrun
  have hs := union_joins h₁.fine.state.types ha h₁.fine.scope.returns
  cases hx
  exact h₁.state.trans (.of_types h₁.fine.state hs.wf hs.le)

theorem runPasses_later (left : Nat) {r r' : Passes} (D : σ.Described ctx)
    (hx : runPasses ctx left r σ = some (r', σ')) :
    σ'.Described ctx ∧ σ.specs.Later σ'.specs := by
  induction left generalizing r σ with
  | zero =>
    cases hx
    exact ⟨D, .refl _⟩
  | succ left ih =>
    obtain ⟨⟨r₁, σ₁⟩, hpass, hx⟩ := Option.bind_eq_some_iff.1 hx
    obtain ⟨⟨top, σ₂⟩, htop, hpass⟩ := Option.bind_eq_some_iff.1 hpass
    cases hpass
    have D₁ : (World.passing σ r.count).Described ctx := { D with }
    have h₁ := inferTop_evolves D₁ htop
    dsimp only at hx
    split at hx
    · cases hx
      exact ⟨h₁.described, h₁.later⟩
    · obtain ⟨D', h'⟩ := ih h₁.described hx
      exact ⟨D', h₁.later.trans h'⟩

/-- Freezing all specializations. -/
theorem State.Described.frozen (D : σ.Described ctx) : (World.frozen σ).Described ctx := by
  refine { D with receivers := fun s j hj => ?_, args := fun s j hj => ?_,
                  returns := fun s j hj => ?_ }
  · obtain ⟨i, hi, rfl⟩ := World.get?_frozen hj
    rw [i.key_freeze]
    exact D.receivers s i hi
  · obtain ⟨i, hi, rfl⟩ := World.get?_frozen hj
    rw [i.key_freeze]
    exact D.args s i hi
  · obtain ⟨i, hi, rfl⟩ := World.get?_frozen hj
    unfold Specialization.freeze
    split
    · exact D.returns s i hi
    · dsimp only
      split
      · exact D.types.has_nil
      · exact D.returns s i hi

end Inference

/-- The specializations of a checked program have come of demanding keys, of what became known of
specializations that were not frozen, and of freezing them. -/
theorem check_after (names : NameTable) (source : Source) (limits : Limits) :
    ∃ c ops, check names source limits = some c ∧
      c.program.specs = Specializations.after (ops ++ [.freezeAll]) := by
  rcases hreg : register names source limits with ⟨es, ctx, σ⟩
  obtain ⟨hk, passes, top, σ₁, σ₂, hrun, htop, hc, -⟩ := check_eq hreg
  obtain ⟨D₁, hlater₁⟩ := runPasses_later _ hk.described hrun
  have hlater₂ := (inferTop_evolves D₁.frozen htop).later
  have hfreeze : σ₁.specs.Later (World.frozen σ₁).specs := ⟨[.freezeAll], rfl⟩
  obtain ⟨ops, hops⟩ := hlater₁.trans (hfreeze.trans hlater₂)
  refine ⟨_, ops, hc, ?_⟩
  rw [Specializations.after, List.foldl_append, ← hk.specs, hops]
  rfl

end Multimethod
