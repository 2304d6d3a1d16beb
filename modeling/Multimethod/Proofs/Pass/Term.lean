import Multimethod.Proofs.Pass.Operand

/-!
# Terms in an earlier pass

An orderly term stays within what the last pass makes of it (`World.inferTerm_stays`): what is read
has fewer members, calls have no other combinations, branches and loops are typed from fewer locals,
and where typing goes on after something without a value, nothing is bound that would be missing.
There is one lemma for each construct, over any parts that stay within what the last pass makes of
them.
-/

namespace Multimethod

open Inference TypeTable InferIn

namespace World

variable {W : World} {τ σ₀ σ σ₁ : State} {S S₁ U : Scope} {K : Prop}
  {visit : SpecId → Infer TypeId} {a b : TypeId} {L L₁ L' : Locals} {B : List Name}

/-! ## Beside the last pass -/

/-- Within a body, the earlier pass is at the same place as the last one: with the same `self`, and
with locals within `L`, in which those of `B` are bound. -/
structure Beside (τ : State) (U : Scope) (B : List Name) (S : Scope) (L : Locals) : Prop where
  self : S.self = U.self
  selfClass : S.selfClass = U.selfClass
  under : Locals.Under τ.types S.locals L
  bound : ∀ n ∈ B, L[n]? ≠ none

namespace Beside

variable {t : Term}

/-- Somewhere else in the body. -/
theorem move (hB : Beside τ U B S L) (hto : W.To σ S σ₁ S₁)
    (hu : Locals.Under τ.types S₁.locals L₁) (hb : ∀ n : Name, L[n]? ≠ none → L₁[n]? ≠ none) :
    Beside τ U B S₁ L₁ where
  self := hto.records.self.trans hB.self
  selfClass := hto.records.selfClass.trans hB.selfClass
  under := hu
  bound n hn := hb n (hB.bound n hn)

/-- After a term that has a value. -/
theorem next (hB : Beside τ U B S L) (H : τ.types.WF) (hT : W.Typed τ U t L a L₁) (ha : a ≠ .never)
    (hto : W.To σ S σ₁ S₁) (hu : Locals.Under τ.types S₁.locals L₁) :
    Beside τ U (t.certain ++ B) S₁ L₁ :=
  { hB.move hto hu fun _ => hT.grows.bound with
    bound := fun n hn => (List.mem_append.1 hn).elim (hT.certain H ha) fun hn =>
      hT.grows.bound (hB.bound n hn) }

end Beside

theorem Follows.grows {T : TypeId → Locals → Prop}
    (hT : ∀ a L', T a L' → Locals.Grows τ.types L L') (h : Follows b L T a L') :
    Locals.Grows τ.types L L' := by
  rcases h with ⟨-, -, rfl⟩ | ⟨-, h⟩
  · exact .refl
  · exact hT _ _ h

/-- Typing both branches of a condition. -/
theorem branches_stays (H : τ.types.WF) (h : W.At σ S) {test yes : Term}
    {branch other : InferIn TypeId} {c d : TypeId} {X Z : Locals}
    (hn : ∀ n ∈ tested? test, n ∈ W.names)
    (hJ : σ.Grows τ → (Narrows τ test (W.Typed τ U yes) L c X ∧
      Locals.Joins τ.types X (c = .never) Z (d = .never) L' ∧ τ.types.Joins c d a) ∧
      Beside τ U B S L)
    (hK : K → (∀ n ∈ tested? test, n ∈ B) ∧ yes.KeepsTo B ∧ yes.Every (·.assigns? = none))
    (up : σ.Grows τ → K → ∀ Y, Locals.Under τ.types Y L → Locals.Under τ.types Y L')
    (hZ : σ.Grows τ → Locals.Grows τ.types L Z)
    (hz : σ.Grows τ → K → ∀ n, Locals.Leaves τ.types n L Z)
    (hb : ∀ σ₁ S₁ M M', W.At σ₁ S₁ → W.To σ S σ₁ S₁ →
      (σ₁.Grows τ → W.Typed τ U yes M c M' ∧ Beside τ U B S₁ M) →
      W.CompletesIn σ₁ S₁ branch (W.Stays τ K c M'))
    (ho : ∀ σ₁ S₁, W.At σ₁ S₁ → W.To σ S σ₁ S₁ → S₁.locals = S.locals →
      W.CompletesIn σ₁ S₁ other (W.Stays τ K d Z)) :
    W.CompletesIn σ S (do
      let b ← narrowing test branch
      joining S.locals b other) (W.Stays τ K a L') := by
  -- A branch that keeps to bound locals leaves the locals as they were before it.
  have up₂ (hg : σ.Grows τ) (hk : K) (Y : Locals) (hY : Locals.Under τ.types Y X) :
      Locals.Under τ.types Y L' := by
    obtain ⟨⟨hy, -⟩, hB⟩ := hJ hg
    obtain ⟨htest, hkeeps, hnone⟩ := hK hk
    refine up hg hk Y (hY.back (hy.grows fun _ _ _ h => h.grows) fun n => ?_)
    exact hy.leaves (P := n ∈ B) (fun _ _ _ h => h.grows)
      (fun _ _ _ hP h => h.leaves (hkeeps.spares_branch hnone n) hP) (hB.bound n) (htest n)
  refine (narrowing_stays H h (T := W.Typed τ U yes) (fun _ _ _ h => h.grows) hn
    (fun hg => ⟨(hJ hg).1.1, (hJ hg).2.under⟩) fun σ₁ S₁ M M' h₁ hto₁ hM => hb σ₁ S₁ M M' h₁ hto₁
      fun hg => ⟨(hM hg).1, (hJ (hto₁.below hg)).2.move hto₁ (hM hg).2.1 (hM hg).2.2⟩).bind
    (fun b σ₁ S₁ h₁ hto₁ ⟨hbv, hb'⟩ => ?_)
    fun e σ' S' _ hto' he hg => ⟨(he hg).1, fun hk => up₂ (hto'.below hg) hk _ ((he hg).2 hk)⟩
  refine joining_stays (c := c) H h₁ (h.scope.locals.extend h.ok hto₁.extend) hbv (fun hg => ?_)
    (fun hg => up₂ (hto₁.below hg)) (fun hg hk Y hY => ?_)
    fun σ₂ S₂ h₂ hto₂ => ho σ₂ S₂ h₂ (hto₁.trans hto₂)
  · obtain ⟨⟨-, hjoin, hunion⟩, -⟩ := hJ (hto₁.below hg)
    exact ⟨hjoin, hunion, hb' hg⟩
  · have hg := hto₁.below hg
    exact up hg hk Y (hY.back (hZ hg) (hz hg hk))

/-- A value that is the same in all passes. -/
theorem constant_stays (h : W.At σ S) (hb : σ.types.Values W.classes b)
    (hJ : σ.Grows τ → (a = b ∧ L' = L) ∧ Beside τ U B S L) :
    W.CompletesIn σ S (Pure.pure b) (W.Stays τ K a L') :=
  .pure h ⟨hb, fun hg => by
    obtain ⟨⟨rfl, rfl⟩, hB⟩ := hJ hg
    exact ⟨.refl, fun _ => hB.under⟩⟩

/-! ## Parts of a term -/

/-- Where the locals of `B` are bound, an earlier pass stays within what the last pass makes of the
term. Without a value its locals do so if the term binds none. -/
def TermStays (W : World) (τ : State) (U : Scope) (σ₀ : State) (visit : SpecId → Infer TypeId)
    (B : List Name) (t : Term) : Prop :=
  ∀ ⦃σ : State⦄ ⦃S : Scope⦄ ⦃L : Locals⦄ ⦃a : TypeId⦄ ⦃L' : Locals⦄, W.At σ S → W.Extends σ₀ σ →
    (σ.Grows τ → W.Typed τ U t L a L' ∧ Beside τ U B S L) →
    W.CompletesIn σ S (inferTerm W.ctx visit t) (W.Stays τ (t.KeepsTo B) a L')

/-- The same for arguments. -/
def ArgsStay (W : World) (τ : State) (U : Scope) (σ₀ : State) (visit : SpecId → Infer TypeId)
    (B : List Name) (ts : List Term) : Prop :=
  ∀ ⦃σ : State⦄ ⦃S : Scope⦄ ⦃L : Locals⦄ ⦃as : Option (List TypeId)⦄ ⦃L' : Locals⦄, W.At σ S →
    W.Extends σ₀ σ → (σ.Grows τ → W.TypedArgs τ U ts L as L' ∧ Beside τ U B S L) →
    W.CompletesIn σ S (inferArgs W.ctx visit ts)
      (W.StaysArgs τ (Term.EveryOf (Term.Keeps B) ts) as L')

/-- The same for statements, where what was typed before them has fewer members, too. -/
def StmtsStay (W : World) (τ : State) (U : Scope) (σ₀ : State) (visit : SpecId → Infer TypeId)
    (B : List Name) (ts : List Term) : Prop :=
  ∀ ⦃σ : State⦄ ⦃S : Scope⦄ ⦃last last' : TypeId⦄ ⦃L : Locals⦄ ⦃a : TypeId⦄ ⦃L' : Locals⦄,
    W.At σ S → W.Extends σ₀ σ → σ.types.Values W.classes last' →
    (σ.Grows τ → W.TypedStmts τ U last ts L a L' ∧ Beside τ U B S L ∧
      τ.types.Within last' last) →
    W.CompletesIn σ S (inferStmts W.ctx visit last' ts)
      (W.Stays τ (Term.EveryOf (Term.Keeps B) ts) a L')

section
variable (H : τ.types.WF) {site : Site}
include H

/-- What is done after a term if that has a value. Locals within those after the term stay within
those at the end if nothing is bound anew from its beginning on. -/
theorem TermStays.followed {t : Term} {F : TypeId → Locals → TypeId → Locals → Prop}
    {f : TypeId → InferIn TypeId} (ht : W.TermStays τ U σ₀ visit B t) (h : W.At σ S)
    (h₀ : W.Extends σ₀ σ)
    (hJ : σ.Grows τ → (∃ b L₁, W.Typed τ U t L b L₁ ∧ Follows b L₁ (F b L₁) a L') ∧
      Beside τ U B S L)
    (hF : ∀ {b L₁ a L'}, F b L₁ a L' → Locals.Grows τ.types L₁ L') (hK : K → t.KeepsTo B)
    (hn : σ.Grows τ → K → ∀ n : Name, L[n]? = none → L'[n]? = none)
    (hf : ∀ b L₁ b' σ₁ S₁, W.At σ₁ S₁ → W.To σ S σ₁ S₁ → σ₁.types.Values W.classes b' →
      (σ₁.Grows τ → F b L₁ a L' ∧ τ.types.Within b' b ∧ Beside τ U (t.certain ++ B) S₁ L₁) →
      (σ₁.Grows τ → K → ∀ Y, Locals.Under τ.types Y L₁ → Locals.Under τ.types Y L') →
      W.CompletesIn σ₁ S₁ (f b') (W.Stays τ K a L')) :
    W.CompletesIn σ S (do
      let b ← inferTerm W.ctx visit t
      unlessNever b (f b)) (W.Stays τ K a L') := by
  obtain ⟨b, L₁, hb⟩ := exists_of_imp₂ fun hg : σ.Grows τ => (hJ hg).1
  have up (hg : σ.Grows τ) (hk : K) (Y : Locals) (hY : Locals.Under τ.types Y L₁) :
      Locals.Under τ.types Y L' :=
    hY.upTo (hb hg).1.grows ((hb hg).2.grows fun _ _ => hF) (hn hg hk)
  refine followed_stays H (ht h h₀ fun hg => ⟨(hb hg).1, (hJ hg).2⟩) hK up
    fun b' σ₁ S₁ h₁ hto hbv hb' => hf b L₁ b' σ₁ S₁ h₁ hto hbv (fun hg => ?_)
      fun hg => up (hto.below hg)
  obtain ⟨hne, hw, hu⟩ := hb' hg
  have ⟨hT, hfollows⟩ := hb (hto.below hg)
  exact ⟨(hfollows.resolve_left fun h => hne h.1).2, hw, (hJ (hto.below hg)).2.next H hT hne hto hu⟩

/-! ## Locals, instance variables and results -/

theorem TermStays.assign {n : Name} {value : Term} (hk : W.Known (.assign site n value))
    (hv : W.TermStays τ U σ₀ visit B value) :
    W.TermStays τ U σ₀ visit B (.assign site n value) := by
  intro σ S L a L' h h₀ hJ
  have hn := fun hg hK n => (hJ hg).1.unbound (n := n) (hJ hg).2.bound hK
  simp only [inferTerm, Typed] at hJ ⊢
  obtain ⟨L₁, hL⟩ := exists_of_imp fun hg : σ.Grows τ => (hJ hg).1.2
  have up (hg : σ.Grows τ) (hK : Term.KeepsTo B (.assign site n value)) (Y : Locals)
      (hY : Locals.Under τ.types Y L₁) : Locals.Under τ.types Y L' :=
    hY.upTo (hL hg).1.grows (hL hg).2.grows (hn hg hK)
  refine recorded_stays site ((hv h h₀ fun hg => ⟨(hL hg).1, (hJ hg).2⟩).bind
    (fun b σ₁ S₁ h₁ hto ⟨hbv, hb⟩ => ?_)
    fun e σ' S' _ hto he hg => ⟨(he hg).1, fun hK => up (hto.below hg) hK _ ((he hg).2 hK.2)⟩)
  exact assignLocal_stays H h₁ (hk.1 n rfl) hbv (fun hg => ⟨(hL (hto.below hg)).2,
    (hb hg).1, fun hK => (hb hg).2 (hK.imp_right And.right)⟩) fun hg => up (hto.below hg)

omit H in
theorem TermStays.setIvar {n : Name} {value : Term} (hk : W.Known (.setIvar site n value))
    (hv : W.TermStays τ U σ₀ visit B value) :
    W.TermStays τ U σ₀ visit B (.setIvar site n value) := by
  intro σ S L a L' h h₀ hJ
  simp only [inferTerm, Typed] at hJ ⊢
  refine recorded_stays site ((hv h h₀ fun hg => ⟨(hJ hg).1.2.1, (hJ hg).2⟩).bind
    (fun b σ₁ S₁ h₁ _ ⟨hbv, hb⟩ => ?_)
    fun e σ' S' _ _ he hg => ⟨(he hg).1, fun hK => (he hg).2 hK.2⟩)
  exact assignIvar_stays h₁ (hk.1 n rfl) hbv fun hg =>
    ⟨(hb hg).1, fun hK => (hb hg).2 (hK.imp_right And.right)⟩

theorem TermStays.retValue {value : Term} (hv : W.TermStays τ U σ₀ visit B value) :
    W.TermStays τ U σ₀ visit B (.retValue site value) := by
  intro σ S L a L' h h₀ hJ
  simp only [inferTerm, Typed] at hJ ⊢
  obtain ⟨b, hb⟩ := exists_of_imp fun hg : σ.Grows τ => (hJ hg).1.2.2
  refine recorded_stays site ((hv h h₀ fun hg => ⟨(hb hg).1, (hJ hg).2⟩).bind
    (fun c σ₁ S₁ h₁ _ ⟨hcv, hc⟩ => ?_) fun e σ' S' _ _ he hg =>
      ⟨(he hg).1, fun hK => (he hg).2 hK.2⟩)
  exact returns_stays h₁ H hcv fun hg hK => (hc hg).2 (.inr hK.2)

omit H in
theorem TermStays.block {stmts : List Term} (hs : W.StmtsStay τ U σ₀ visit B stmts) :
    W.TermStays τ U σ₀ visit B (.block site stmts) := by
  intro σ S L a L' h h₀ hJ
  simp only [inferTerm, Typed] at hJ ⊢
  exact recorded_stays site ((hs h h₀ (.nil h.ok.types W.five_le)
    fun hg => ⟨(hJ hg).1.2, (hJ hg).2, .refl⟩).imp And.right)

/-! ## Arguments and statements -/

omit H in
theorem ArgsStay.nil : W.ArgsStay τ U σ₀ visit B [] := by
  intro σ S L as L' h _ hJ
  simp only [inferArgs, TypedArgs] at hJ ⊢
  refine .pure h ⟨by simp, fun hg => ?_⟩
  obtain ⟨⟨rfl, rfl⟩, hB⟩ := hJ hg
  exact ⟨⟨[], rfl, .nil⟩, hB.under⟩

theorem ArgsStay.cons {t : Term} {ts : List Term} (ht : W.TermStays τ U σ₀ visit B t)
    (hts : W.ArgsStay τ U σ₀ visit (t.certain ++ B) ts) :
    W.ArgsStay τ U σ₀ visit B (t :: ts) := by
  intro σ S L as L' h h₀ hJ
  have hn := fun hg hK n => (hJ hg).1.unbound (n := n) (hJ hg).2.bound hK
  simp only [inferArgs, TypedArgs] at hJ ⊢
  obtain ⟨a, L₁, ha⟩ := exists_of_imp₂ fun hg : σ.Grows τ => (hJ hg).1
  have up (hg : σ.Grows τ) (hK : Term.EveryOf (Term.Keeps B) (t :: ts)) (Y : Locals)
      (hY : Locals.Under τ.types Y L₁) : Locals.Under τ.types Y L' := by
    refine hY.upTo (ha hg).1.grows ?_ (hn hg hK)
    rcases (ha hg).2 with ⟨-, -, rfl⟩ | ⟨-, as₁, has, -⟩
    · exact .refl
    · exact has.grows
  refine (ht h h₀ fun hg => ⟨(ha hg).1, (hJ hg).2⟩).bind (fun b σ₁ S₁ h₁ hto ⟨hbv, hb⟩ => ?_)
    fun e σ' S' _ hto he hg => ⟨(he hg).1, fun hK => up (hto.below hg) hK _ ((he hg).2 hK.1)⟩
  by_cases hne : b = .never
  · simp only [hne, if_true]
    exact .pure h₁ fun hg hK => up (hto.below hg) hK _ ((hb hg).2 (.inr hK.1))
  simp only [hne, if_false]
  have hne' (hg : σ₁.Grows τ) : a ≠ .never := (hb hg).1.ne_never H (hbv.1.mono hg.types) hne
  obtain ⟨as₁, has⟩ := exists_of_imp fun hg : σ₁.Grows τ =>
    ((ha (hto.below hg)).2.resolve_left fun h => hne' hg h.1).2
  refine (hts h₁ (h₀.trans hto.extend) fun hg => ⟨(has hg).1, (hJ (hto.below hg)).2.next H
    (ha (hto.below hg)).1 (hne' hg) hto ((hb hg).2 (.inl hne))⟩).bind
    (fun bs σ₂ S₂ h₂ hto₂ hbs => ?_)
    fun e σ' S' _ _ he hg => ⟨(he hg).1, fun hK => (he hg).2 (Term.keepsTo_append hK.2)⟩
  cases bs with
  | none => exact .pure h₂ fun hg hK => hbs hg (Term.keepsTo_append hK.2)
  | some bs =>
    refine .pure h₂ ⟨List.forall_mem_cons.2 ⟨hbv.mono h₁.ok.types hto₂.extend.types, hbs.1⟩,
      fun hg => ?_⟩
    have hg₁ := hto₂.below hg
    obtain ⟨⟨as', rfl, hw⟩, hu⟩ := hbs.2 hg
    exact ⟨⟨a :: as', (has hg₁).2, .cons ⟨hne, (hb hg₁).1⟩ hw⟩, hu⟩

omit H in
theorem StmtsStay.nil : W.StmtsStay τ U σ₀ visit B [] := by
  intro σ S last last' L a L' h _ hl hJ
  simp only [inferStmts, TypedStmts] at hJ ⊢
  refine .pure h ⟨hl, fun hg => ?_⟩
  obtain ⟨⟨rfl, rfl⟩, hB, hw⟩ := hJ hg
  exact ⟨hw, fun _ => hB.under⟩

theorem StmtsStay.cons {t : Term} {ts : List Term} (ht : W.TermStays τ U σ₀ visit B t)
    (hts : W.StmtsStay τ U σ₀ visit (t.certain ++ B) ts) :
    W.StmtsStay τ U σ₀ visit B (t :: ts) := by
  intro σ S last last' L a L' h h₀ _ hJ
  have hn := fun hg hK n => (hJ hg).1.unbound (n := n) (hJ hg).2.1.bound hK
  simp only [inferStmts, TypedStmts] at hJ ⊢
  exact ht.followed H h h₀ (fun hg => ⟨(hJ hg).1, (hJ hg).2.1⟩) (fun hF => hF.grows) And.left hn
    fun b L₁ b' σ₁ S₁ h₁ hto hbv hb _ => (hts h₁ (h₀.trans hto.extend) hbv fun hg =>
      ⟨(hb hg).1, (hb hg).2.2, (hb hg).2.1⟩).imp fun hK => Term.keepsTo_append hK.2

theorem TermStays.primitive {op : Primitive} {args : List Term}
    (hargs : W.ArgsStay τ U σ₀ visit B args) :
    W.TermStays τ U σ₀ visit B (.primitive site op args) := by
  intro σ S L a L' h h₀ hJ
  simp only [inferTerm, Typed] at hJ ⊢
  obtain ⟨as, has⟩ := exists_of_imp fun hg : σ.Grows τ => (hJ hg).1.2
  refine recorded_stays site (withArgs_stays H (hargs h h₀ fun hg => ⟨(has hg).1, (hJ hg).2⟩)
    (fun hK => hK.2) fun bs σ₂ S₂ h₂ hto₂ hbs hJ₂ => ?_)
  obtain ⟨as', has'⟩ := exists_of_imp fun hg : σ₂.Grows τ => (hJ₂ hg).1
  refine inferPrimitive_stays h₂ H site op hbs fun hg =>
    show Applies W τ op as' a ∧ _ from ⟨?_, (has' hg).2, (hJ₂ hg).2⟩
  obtain ⟨rfl, -⟩ := has' hg
  exact (has (hto₂.below hg)).2

/-! ## Branches and loops -/

theorem TermStays.ifThen {test yes : Term} (hk : W.Known test)
    (ht : W.TermStays τ U σ₀ visit B test)
    (hy : W.TermStays τ U σ₀ visit (test.certain ++ B) yes) :
    W.TermStays τ U σ₀ visit B (.ifThen site test yes) := by
  intro σ S L a L' h h₀ hJ
  have hn := fun hg hK n => (hJ hg).1.unbound (n := n) (hJ hg).2.bound hK
  simp only [inferTerm, Typed] at hJ ⊢
  refine recorded_stays site (ht.followed H h h₀ (fun hg => ⟨(hJ hg).1.2, (hJ hg).2⟩)
    (fun ⟨_, _, hy, hj, _⟩ => hj.grows (hy.grows fun _ _ _ h => h.grows) .refl)
    (fun hK => hK.2.1) hn fun b L₁ b' σ₁ S₁ h₁ hto _ hb up => .locals ?_)
  obtain ⟨c, L₂, hc⟩ := exists_of_imp₂ fun hg : σ₁.Grows τ => (hb hg).1
  refine branches_stays (c := c) (d := .nil) (L := L₁) (X := L₂) (Z := L₁) H h₁
    (tested?_known hk) (fun hg => ⟨hc hg, (hb hg).2.2⟩)
    (fun hK => ⟨fun n hn => List.mem_append_right _ (hK.1.2.1 n hn),
      Term.KeepsTo.append hK.2.2, hK.1.2.2 yes (.head _)⟩)
    up (fun _ => .refl) (fun _ _ _ => .refl)
    (fun σ₂ S₂ M M' h₂ hto₂ hM => ?_) fun σ₂ S₂ h₂ hto₂ hS₂ => ?_
  · exact (hy h₂ (h₀.trans (hto.trans hto₂).extend) hM).imp fun hK => Term.KeepsTo.append hK.2.2
  · refine .pure h₂ ⟨.nil h₂.ok.types W.five_le, fun hg => ⟨.refl, fun _ => ?_⟩⟩
    rw [hS₂]
    exact (hb (hto₂.below hg)).2.2.under

theorem TermStays.ifElse {test yes no : Term} (hk : W.Known test)
    (ht : W.TermStays τ U σ₀ visit B test)
    (hy : W.TermStays τ U σ₀ visit (test.certain ++ B) yes)
    (hno : W.TermStays τ U σ₀ visit (test.certain ++ B) no) :
    W.TermStays τ U σ₀ visit B (.ifElse site test yes no) := by
  intro σ S L a L' h h₀ hJ
  have hn := fun hg hK n => (hJ hg).1.unbound (n := n) (hJ hg).2.bound hK
  simp only [inferTerm, Typed] at hJ ⊢
  refine recorded_stays site (ht.followed H h h₀ (fun hg => ⟨(hJ hg).1.2, (hJ hg).2⟩)
    (fun ⟨_, _, _, _, hy, hn, hj, _⟩ => hj.grows (hy.grows fun _ _ _ h => h.grows) hn.grows)
    (fun hK => hK.2.1) hn fun b L₁ b' σ₁ S₁ h₁ hto _ hb up => .locals ?_)
  obtain ⟨c, L₂, hc⟩ := exists_of_imp₂ fun hg : σ₁.Grows τ => (hb hg).1
  obtain ⟨d, L₃, hc⟩ := exists_of_imp₂ hc
  refine branches_stays (c := c) (d := d) (L := L₁) (X := L₂) (Z := L₃) H h₁
    (tested?_known hk) (fun hg => ⟨⟨(hc hg).1, (hc hg).2.2⟩, (hb hg).2.2⟩)
    (fun hK => ⟨fun n hn => List.mem_append_right _ (hK.1.2.1 n hn),
      Term.KeepsTo.append hK.2.2.1, hK.1.2.2 yes (.head _)⟩)
    up (fun hg => (hc hg).2.1.grows) (fun hg hK n => ?_)
    (fun σ₂ S₂ M M' h₂ hto₂ hM => ?_) fun σ₂ S₂ h₂ hto₂ hS₂ => ?_
  · exact (hc hg).2.1.leaves (Term.KeepsTo.spares_branch hK.2.2.2 (hK.1.2.2 no (.tail _ (.head _))) n)
      fun hn => (hb hg).2.2.bound n (List.mem_append_right _ hn)
  · exact (hy h₂ (h₀.trans (hto.trans hto₂).extend) hM).imp fun hK => Term.KeepsTo.append hK.2.2.1
  · refine (hno (L := L₁) h₂ (h₀.trans (hto.trans hto₂).extend) fun hg => ?_).imp fun hK =>
      Term.KeepsTo.append hK.2.2.2
    have ⟨_, _, beside⟩ := hb (hto₂.below hg)
    exact ⟨(hc (hto₂.below hg)).2.1, beside.move hto₂ (hS₂ ▸ beside.under) fun _ hn => hn⟩

theorem TermStays.loop {test body : Term} (htest : test.KeepsTo B) (hbody : body.KeepsTo B)
    (ht : W.TermStays τ U σ₀ visit B test) (hb : W.TermStays τ U σ₀ visit B body) :
    W.TermStays τ U σ₀ visit B (.loop site test body) := by
  intro σ S L a L' h h₀ hJ
  simp only [inferTerm]
  have hloop : Term.KeepsTo B (.loop site test body) :=
    ⟨⟨by simp [Term.assigns?], by simp [Term.tests?], by simp [Term.branches]⟩, htest, hbody⟩
  have beside {σ₁ : State} {S₁ : Scope} {M : Locals} (hto : W.To σ S σ₁ S₁) (hg : σ₁.Grows τ)
      (hE : Locals.Grows τ.types L M) (hu : Locals.Under τ.types S₁.locals M) :
      Beside τ U B S₁ M :=
    (hJ (hto.below hg)).2.move hto hu fun _ => hE.bound
  have hrounds := inferLoop_stays (T := W.Typed τ U test) (R := W.Typed τ U body) (E := L)
    H (fun _ _ _ h => h.grows) (fun _ _ _ h => h.grows)
    (fun hg n => (hJ hg).1.unbound (hJ hg).2.bound hloop)
    (fun σ₁ S₁ M a M' h₁ hto hM => (ht h₁ (h₀.trans hto.extend) fun hg =>
      ⟨(hM hg).1, beside hto hg (hM hg).2.1 (hM hg).2.2⟩).imp fun _ => htest)
    (fun σ₁ S₁ M a M' h₁ hto hM => (hb h₁ (h₀.trans hto.extend) fun hg =>
      ⟨(hM hg).1, beside hto hg (hM hg).2.1 (hM hg).2.2⟩).imp fun _ => hbody)
    h (.refl h) W.ctx site (W.ctx.limits.loopRounds - 1) none fun hg => by
      obtain ⟨-, -, hr⟩ := by simpa only [Typed] using (hJ hg).1
      exact ⟨hr, .refl, (hJ hg).2.under, by simp⟩
  refine recorded_stays site (hrounds.bind (fun _ σ₁ S₁ h₁ hto hs => ?_)
    fun e σ' S' _ _ hs hg => ⟨(hs hg).1 e rfl, fun _ => (hs hg).2⟩)
  refine .pure h₁ ⟨.nil h₁.ok.types W.five_le, fun hg => ⟨?_, fun _ => (hs hg).2⟩⟩
  obtain ⟨-, rfl, -⟩ := by simpa only [Typed] using (hJ (hto.below hg)).1
  exact .refl

/-- The two connectives are typed alike. -/
theorem TermStays.connective {t left right : Term}
    (h : t = .andAlso site left right ∨ t = .orElse site left right)
    (hk : right.KeepsTo (left.certain ++ B)) (hl : W.TermStays τ U σ₀ visit B left)
    (hr : W.TermStays τ U σ₀ visit (left.certain ++ B) right) :
    W.TermStays τ U σ₀ visit B t := by
  rcases h with rfl | rfl
  all_goals
    intro σ S L a L' h h₀ hJ
    have hn := fun hg hK n => (hJ hg).1.unbound (n := n) (hJ hg).2.bound hK
    simp only [inferTerm, Typed] at hJ ⊢
    obtain ⟨b, L₁, hb⟩ := exists_of_imp₂ fun hg : σ.Grows τ => (hJ hg).1.2
    refine recorded_stays site (connective_stays H (hl h h₀ fun hg => ⟨(hb hg).1, (hJ hg).2⟩)
      (fun hK => hK.2.1) (fun _ _ hr => hr.grows)
      (fun hg => (hb hg).2) (fun hg hK Y hY => hY.upTo (hb hg).1.grows
        ((hb hg).2.grows fun _ _ ⟨_, _, hr, hor, _⟩ => hr.grows.trans hor.grows) (hn hg hK))
      fun c L₂ σ₁ S₁ h₁ hto hR => ?_)
    exact (hr h₁ (h₀.trans hto.extend) fun hg => ⟨(hR hg).1, (hJ (hto.below hg)).2.next H
      (hb (hto.below hg)).1 (hR hg).2.1 hto (hR hg).2.2⟩).imp fun _ => hk

end

section
variable (hv : W.Answering τ σ₀ visit) (hτ : W.Ok τ) (hidle : AllIdle τ)
  (hreach : ReachedBy τ U.body)
include hv hτ hidle hreach

/-! ## Calls -/

theorem TermStays.call {site : Site} {receiver : Term} {method : Name} {args : List Term}
    (hk : W.Known (.call site receiver method args)) (hr : W.TermStays τ U σ₀ visit B receiver)
    (hargs : W.ArgsStay τ U σ₀ visit (receiver.certain ++ B) args) :
    W.TermStays τ U σ₀ visit B (.call site receiver method args) := by
  intro σ S L a L' h h₀ hJ
  have hn := fun hg hK n => (hJ hg).1.unbound (n := n) (hJ hg).2.bound hK
  simp only [inferTerm, Typed] at hJ ⊢
  refine recorded_stays site (hr.followed hτ.types h h₀ (fun hg => ⟨(hJ hg).1.2, (hJ hg).2⟩)
    (fun h => h.elim fun _ has => has.1.grows) (fun hK => hK.2.1) hn
    fun b L₁ b' σ₁ S₁ h₁ hto hbv hb _ => ?_)
  obtain ⟨as, has⟩ := exists_of_imp fun hg : σ₁.Grows τ => (hb hg).1
  refine withArgs_stays hτ.types (hargs h₁ (h₀.trans hto.extend) fun hg =>
    ⟨(has hg).1, (hb hg).2.2⟩) (fun hK => Term.keepsTo_append hK.2.2)
    fun bs σ₂ S₂ h₂ hto₂ hbs hJ₂ => ?_
  refine inferCallAt_stays h₂ hv hτ hidle (h₀.trans (hto.trans hto₂).extend) site
    ⟨_, hk.2 method rfl, rfl, fun _ _ h => by cases h⟩
    (fun c hc => by cases hc; exact hbv.mono h₁.ok.types hto₂.extend.types) hbs
    fun hg => ⟨fun p hp => ?_, (hJ₂ hg).2⟩
  have hg₁ := hto₂.below hg
  obtain ⟨as', rfl, hw⟩ := (hJ₂ hg).1
  exact Calls.answered (has hg₁).2 hreach
    (combinations_within (.inr ⟨b, b', rfl, rfl, (hb hg₁).2.1⟩) hw hp)

theorem TermStays.send {site : Site} {method : Name} {args : List Term}
    (hk : W.Known (.send site method args)) (hargs : W.ArgsStay τ U σ₀ visit B args) :
    W.TermStays τ U σ₀ visit B (.send site method args) := by
  intro σ S L a L' h h₀ hJ
  simp only [inferTerm, Typed] at hJ ⊢
  obtain ⟨as, has⟩ := exists_of_imp fun hg : σ.Grows τ => (hJ hg).1.2
  refine recorded_stays site (withArgs_stays hτ.types (hargs h h₀ fun hg =>
    ⟨(has hg).1, (hJ hg).2⟩) (fun hK => hK.2) fun bs σ₂ S₂ h₂ hto₂ hbs hJ₂ => ?_)
  refine inferCallAt_stays h₂ hv hτ hidle (h₀.trans hto₂.extend) site
    ⟨_, hk.2 method rfl, rfl, fun _ _ _ => rfl⟩ (by simp) hbs
    fun hg => ⟨fun p hp => ?_, (hJ₂ hg).2⟩
  have hg₁ := hto₂.below hg
  obtain ⟨as', rfl, hw⟩ := (hJ₂ hg).1
  rw [hto₂.records.self, (hJ hg₁).2.self] at hp
  exact Calls.answered (has hg₁).2 hreach (combinations_within (.inl rfl) hw hp)

/-! ## All terms -/

set_option linter.unusedSectionVars false in
mutual

/-- An orderly term stays within what the last pass makes of it. -/
theorem inferTerm_stays : ∀ {t : Term} {B : List Name}, t.Every W.Known → t.orderly B = true →
    W.TermStays τ U σ₀ visit B t
  | .nil site, B, _, _ => fun σ S L a L' h _ hJ => by
    simp only [inferTerm, Typed] at hJ ⊢
    exact recorded_stays site (constant_stays h (.nil h.ok.types W.five_le) fun hg =>
      ⟨(hJ hg).1.2, (hJ hg).2⟩)
  | .bool site _, B, _, _ => fun σ S L a L' h _ hJ => by
    simp only [inferTerm, Typed] at hJ ⊢
    exact recorded_stays site (constant_stays h (.bool h.ok.types W.five_le) fun hg =>
      ⟨(hJ hg).1.2, (hJ hg).2⟩)
  | .int site _, B, _, _ => fun σ S L a L' h _ hJ => by
    simp only [inferTerm, Typed] at hJ ⊢
    exact recorded_stays site (constant_stays h (.int h.ok.types W.five_le) fun hg =>
      ⟨(hJ hg).1.2, (hJ hg).2⟩)
  | .float site _, B, _, _ => fun σ S L a L' h _ hJ => by
    simp only [inferTerm, Typed] at hJ ⊢
    exact recorded_stays site (constant_stays h (.float h.ok.types W.five_le) fun hg =>
      ⟨(hJ hg).1.2, (hJ hg).2⟩)
  | .self site, B, _, _ => fun σ S L a L' h _ hJ => by
    simp only [inferTerm, Typed] at hJ ⊢
    exact recorded_stays site (.scope (constant_stays h (h.scope.self_values h.ok) fun hg =>
      ⟨(hJ hg).2.self ▸ (hJ hg).1.2, (hJ hg).2⟩))
  | .var site n, B, _, _ => fun σ S L a L' h _ hJ => by
    simp only [inferTerm, Typed] at hJ ⊢
    refine recorded_stays site (.local? (.pure h ⟨h.scope.local_values h.ok n, fun hg => ?_⟩))
    obtain ⟨⟨-, rfl, rfl⟩, hB⟩ := hJ hg
    exact ⟨hB.under.getD hτ.types n, fun _ => hB.under⟩
  | .ivar site n, B, _, _ => fun σ S L a L' h _ hJ => by
    simp only [inferTerm, Typed] at hJ ⊢
    refine recorded_stays site (readIvar_stays (U := U) h hτ.types n fun hg => ?_)
    obtain ⟨⟨-, rfl, ha⟩, hB⟩ := hJ hg
    exact ⟨hB.selfClass, ha, hB.under⟩
  | .const site n, B, _, _ => fun σ S L a L' h _ hJ => by
    simp only [inferTerm, Typed] at hJ ⊢
    refine recorded_stays site (inferConst_stays h site n fun hg => ?_)
    obtain ⟨⟨-, rfl, ha⟩, hB⟩ := hJ hg
    exact ⟨ha, hB.under⟩
  | .ret site, B, _, _ => fun σ S L a L' h _ hJ => by
    simp only [inferTerm, Typed] at hJ ⊢
    refine recorded_stays site (returns_stays h hτ.types (.nil h.ok.types W.five_le)
      fun hg _ => ?_)
    obtain ⟨⟨-, -, rfl, -⟩, hB⟩ := hJ hg
    exact hB.under
  | .assign site n value, B, hk, ho => .assign hτ.types hk.1 (inferTerm_stays hk.2 ho)
  | .setIvar site n value, B, hk, ho => .setIvar hk.1 (inferTerm_stays hk.2 ho)
  | .retValue site value, B, hk, ho => .retValue hτ.types (inferTerm_stays hk.2 ho)
  | .block site stmts, B, hk, ho => .block (inferStmts_stays hk.2 ho)
  | .primitive site op args, B, hk, ho => .primitive hτ.types (inferArgs_stays hk.2 ho)
  | .call site receiver method args, B, hk, ho => by
    simp only [Term.orderly, Bool.and_eq_true] at ho
    exact .call hv hτ hidle hreach hk.1 (inferTerm_stays hk.2.1 ho.1) (inferArgs_stays hk.2.2 ho.2)
  | .send site method args, B, hk, ho =>
    .send hv hτ hidle hreach hk.1 (inferArgs_stays hk.2 ho)
  | .ifThen site test yes, B, hk, ho => by
    simp only [Term.orderly, Bool.and_eq_true] at ho
    have hk := hk.2
    exact .ifThen hτ.types hk.1.self (inferTerm_stays hk.1 ho.1) (inferTerm_stays hk.2 ho.2)
  | .ifElse site test yes no, B, hk, ho => by
    simp only [Term.orderly, Bool.and_eq_true] at ho
    have hk := hk.2
    exact .ifElse hτ.types hk.1.self (inferTerm_stays hk.1 ho.1.1) (inferTerm_stays hk.2.1 ho.1.2)
      (inferTerm_stays hk.2.2 ho.2)
  | .loop site test body, B, hk, ho => by
    simp only [Term.orderly, Bool.and_eq_true, decide_eq_true_eq] at ho
    obtain ⟨⟨⟨htest, hbody⟩, hot⟩, hob⟩ := ho
    exact .loop hτ.types htest hbody (inferTerm_stays hk.2.1 hot) (inferTerm_stays hk.2.2 hob)
  | .andAlso site left right, B, hk, ho => by
    simp only [Term.orderly, Bool.and_eq_true, decide_eq_true_eq] at ho
    exact .connective hτ.types (.inl rfl) ho.1.2 (inferTerm_stays hk.2.1 ho.1.1)
      (inferTerm_stays hk.2.2 ho.2)
  | .orElse site left right, B, hk, ho => by
    simp only [Term.orderly, Bool.and_eq_true, decide_eq_true_eq] at ho
    exact .connective hτ.types (.inr rfl) ho.1.2 (inferTerm_stays hk.2.1 ho.1.1)
      (inferTerm_stays hk.2.2 ho.2)

theorem inferArgs_stays : ∀ {ts : List Term} {B : List Name}, Term.EveryOf W.Known ts →
    Term.orderlyOf B ts = true → W.ArgsStay τ U σ₀ visit B ts
  | [], B, _, _ => .nil
  | t :: ts, B, hk, ho => by
    simp only [Term.orderlyOf, Bool.and_eq_true] at ho
    exact .cons hτ.types (inferTerm_stays hk.1 ho.1) (inferArgs_stays hk.2 ho.2)

theorem inferStmts_stays : ∀ {ts : List Term} {B : List Name}, Term.EveryOf W.Known ts →
    Term.orderlyOf B ts = true → W.StmtsStay τ U σ₀ visit B ts
  | [], B, _, _ => .nil
  | t :: ts, B, hk, ho => by
    simp only [Term.orderlyOf, Bool.and_eq_true] at ho
    exact .cons hτ.types (inferTerm_stays hk.1 ho.1) (inferStmts_stays hk.2 ho.2)

end

end

end World

end Multimethod
