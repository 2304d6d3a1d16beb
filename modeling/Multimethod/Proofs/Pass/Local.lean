import Multimethod.Proofs.Inference.Body
import Multimethod.Proofs.Pass.Completes

/-!
# Paths of an earlier pass

Two passes type the same term from different states. All states grow into the last one, `τ`, and
there the judgement gives the term a type `a` and locals `L'`. In the earlier pass the term stays
within these (`World.Stays`): its type has no more members than `a`, its locals are within `L'`, and
the only error is that a limit was reached. If the term has no value in the earlier pass, its locals
may be short of some that the last pass binds, unless it binds none.

That a state on the way has grown into `τ` follows once the end is known to have. So whatever is
said here of the judgement is said under this condition.
-/

namespace Multimethod

open Inference TypeTable InferIn

namespace TypeTable

variable {t : TypeTable} {a b c a' b' c' : TypeId}

/-- Every member of `a` is one of `b`. -/
def Within (t : TypeTable) (a b : TypeId) : Prop := ∀ m ∈ t.members a, m ∈ t.members b

namespace Within

theorem refl : t.Within a a := fun _ hm => hm

theorem trans (h : t.Within a b) (h' : t.Within b c) : t.Within a c := fun m hm => h' m (h m hm)

theorem never (H : t.WF) : t.Within .never a := fun m hm => by simp [H.members_never] at hm

theorem ne_never (H : t.WF) (ha : t.Has a) (h : t.Within a b) (hne : a ≠ .never) :
    b ≠ .never := by
  rintro rfl
  exact hne (Inside.eq_never H ⟨ha, H.has_never, h⟩)

/-- A type with one member has no others within it. -/
theorem eq_of_isMember (H : t.WF) (ha : t.Has a) (h : t.Within a b) (hne : a ≠ .never)
    (hb : (t.shape b).IsMember) : a = b := by
  have hmem : t.members b = [b] := members_of_isMember hb
  obtain ⟨m, hm⟩ := List.exists_mem_of_ne_nil _ fun hnil => hne ((H.members_eq_nil ha).1 hnil)
  have hmb := h m hm
  rw [hmem, List.mem_singleton] at hmb
  subst hmb
  refine Inside.antisymm H ⟨ha, has_of_isMember hb, h⟩ ⟨has_of_isMember hb, ha, fun k hk => ?_⟩
  rw [hmem, List.mem_singleton] at hk
  exact hk ▸ hm

end Within

theorem Joins.within (h : t.Joins a b c) (h' : t.Joins a' b' c') (ha : t.Within a a')
    (hb : t.Within b b') : t.Within c c' := fun m hm =>
  ((h.2.2.2 m).1 hm).elim (fun hm => h'.left.2.2 m (ha m hm)) fun hm => h'.right.2.2 m (hb m hm)

end TypeTable

namespace Inference

variable {t : TypeTable} {L L₁ L' X Y : Locals} {n : Name} {T R : Locals → TypeId → Locals → Prop}

/-- From somewhere on the way to the end of what binds no locals anew. -/
theorem Locals.Under.upTo (h : Under t Y X) (hL : Grows t L X) (hX : Grows t X L')
    (hn : ∀ n : Name, L[n]? = none → L'[n]? = none) : Under t Y L' :=
  h.widen hX fun n hnX => hn n (by_contra fun hne => hL.bound hne hnX)

/-- Back to where something began that leaves all locals alone. -/
theorem Locals.Under.back (h : Under t Y X) (hX : Grows t L X) (hl : ∀ n, Leaves t n L X) :
    Under t Y L where
  grows n y hy := by
    obtain ⟨x, hx, hyx⟩ := h.grows n y hy
    obtain ⟨a, ha, hxa⟩ := hl n x hx
    exact ⟨a, ha, fun m hm => hxa m (hyx m hm)⟩
  nil n a hn ha := by
    obtain ⟨x, hx, hax⟩ := hX n a ha
    obtain ⟨b, hb, hxb⟩ := hl n x hx
    cases ha.symm.trans hb
    exact hxb _ (h.nil n x hn hx)

/-- The next round of a loop, which is the last one again if there is no other. -/
theorem Rounds.round {bound : Option Locals} (h : Rounds t T R bound L L') :
    ∃ a L₁ L₂, T L a L₁ ∧ (a = .never → L₂ = L₁) ∧ (a ≠ .never → ∃ b, R L₁ b L₂) ∧
      Rounds t T R (some (bound.getD L₁)) L₂ L' := by
  cases h with
  | @stop _ _ a L₁ _ ht hno hyes hor =>
    exact ⟨a, L₁, L, ht, fun ha => (hno ha).symm, hyes, .stop ht hno hyes hor⟩
  | @next _ _ a L₁ L₂ _ ht hno hyes _ hrest => exact ⟨a, L₁, L₂, ht, hno, hyes, hrest⟩

/-- What is within the locals `L₁` after the test of a round is within those at its end, `L₂`, and
what is within these is within `L'`, if nothing is bound anew from `E` on. -/
theorem Rounds.under {E L₂ : Locals} {a : TypeId} {bound : Option Locals}
    (hgT : ∀ L a L', T L a L' → Locals.Grows t L L')
    (hgR : ∀ L a L', R L a L' → Locals.Grows t L L') (hE : Locals.Grows t E L) (hT : T L a L₁)
    (hno : a = .never → L₂ = L₁) (hyes : a ≠ .never → ∃ b, R L₁ b L₂)
    (hrest : Rounds t T R bound L₂ L') (hn : ∀ n : Name, E[n]? = none → L'[n]? = none) :
    Locals.Grows t E L₁ ∧ Locals.Grows t L₁ L₂ ∧
      (∀ Y, Locals.Under t Y L₁ → Locals.Under t Y L₂) ∧
      ∀ Y, Locals.Under t Y L₂ → Locals.Under t Y L' := by
  have h₁ := hE.trans (hgT _ _ _ hT)
  have h' := hrest.grows hgT hgR
  have h₂ : Locals.Grows t L₁ L₂ := by
    by_cases ha : a = .never
    · rw [hno ha]
      exact .refl
    · obtain ⟨b, hb⟩ := hyes ha
      exact hgR _ _ _ hb
  exact ⟨h₁, h₂, fun Y hY => hY.upTo h₁ h₂ fun n hnE => by_contra fun hne =>
    h'.bound hne (hn n hnE), fun Y hY => hY.upTo (h₁.trans h₂) h' hn⟩

end Inference

namespace World

variable {W : World} {τ σ₀ σ σ₁ σ' : State} {S S₁ S' U : Scope} {K K₁ : Prop}
  {a b c d a₁ : TypeId} {L L₁ L₂ L₃ L' : Locals}

theorem To.below (h : W.To σ S σ' S') (hg : σ'.Grows τ) : σ.Grows τ := h.extend.toGrows.trans hg

/-- What an earlier pass gives stays within the type `a` and the locals `L'` of the last one. That
the locals do holds without a value only under the condition `K`. -/
def Stays (W : World) (τ : State) (K : Prop) (a : TypeId) (L' : Locals) :
    Except TypeError TypeId → State → Scope → Prop
  | .ok b, σ', S' => σ'.types.Values W.classes b ∧ (σ'.Grows τ →
      τ.types.Within b a ∧ (b ≠ .never ∨ K → Locals.Under τ.types S'.locals L'))
  | .error e, σ', S' => σ'.Grows τ → e.IsDivergence ∧ (K → Locals.Under τ.types S'.locals L')

theorem Stays.imp (hK : K₁ → K) {r : Except TypeError TypeId} (h : W.Stays τ K a L' r σ S) :
    W.Stays τ K₁ a L' r σ S := by
  cases r with
  | ok b => exact ⟨h.1, fun hg => ⟨(h.2 hg).1, fun hk => (h.2 hg).2 (hk.imp_right hK)⟩⟩
  | error e => exact fun hg => ⟨(h hg).1, fun hk => (h hg).2 (hK hk)⟩

theorem CompletesIn.imp {x : InferIn TypeId} (h : W.CompletesIn σ S x (W.Stays τ K a L'))
    (hK : K₁ → K) : W.CompletesIn σ S x (W.Stays τ K₁ a L') :=
  h.mono fun _ _ _ _ _ hr => hr.imp hK

/-- Recording the type of an expression. -/
theorem recorded_stays (site : Site) {x : InferIn TypeId}
    (hx : W.CompletesIn σ S x (W.Stays τ K a L')) :
    W.CompletesIn σ S (recorded site x) (W.Stays τ K a L') := by
  have hrec : recorded site x = x >>= fun b => recorded site (pure b) := by
    simp only [recorded, pure_bind]
  rw [hrec]
  refine hx.bind (fun b σ₁ S₁ h₁ hto hb => ?_) fun _ _ _ _ _ he => he
  obtain ⟨r, σ', S', hrun, hat, hto', -⟩ := recorded_safe (T := fun _ _ _ _ _ => True) site
    (SafeIn.pure h₁ ⟨hb.1, h₁.scope.locals.refl, fun _ _ _ => trivial⟩)
  have run : recorded site (pure b) (σ₁, S₁) = some (.ok b, _, _) := rfl
  cases hrun.symm.trans run
  exact ⟨_, _, _, run, hat, hto', hb.1.mono h₁.ok.types hto'.extend.types,
    fun hg => hb.2 (hto'.below hg)⟩

section
variable (H : τ.types.WF)
include H

/-- What comes second is typed only if what comes first has a value. -/
theorem followed_stays {x : InferIn TypeId} {f : TypeId → InferIn TypeId}
    (hx : W.CompletesIn σ S x (W.Stays τ K₁ a₁ L₁)) (hK : K → K₁)
    (hup : σ.Grows τ → K → ∀ Y, Locals.Under τ.types Y L₁ → Locals.Under τ.types Y L')
    (hf : ∀ b σ₁ S₁, W.At σ₁ S₁ → W.To σ S σ₁ S₁ → σ₁.types.Values W.classes b →
      (σ₁.Grows τ → a₁ ≠ .never ∧ τ.types.Within b a₁ ∧ Locals.Under τ.types S₁.locals L₁) →
      W.CompletesIn σ₁ S₁ (f b) (W.Stays τ K a L')) :
    W.CompletesIn σ S (do
      let b ← x
      unlessNever b (f b)) (W.Stays τ K a L') := by
  refine hx.bind (fun b σ₁ S₁ h₁ hto ⟨hbv, hb⟩ => ?_) fun e σ' S' _ hto he hg => ?_
  · unfold unlessNever
    split
    · refine .pure h₁ ⟨.never h₁.ok.types, fun hg => ⟨.never H, fun hk => ?_⟩⟩
      have hk := hk.resolve_left fun h => h rfl
      exact hup (hto.below hg) hk _ ((hb hg).2 (.inr (hK hk)))
    · rename_i hne
      refine hf b σ₁ S₁ h₁ hto hbv fun hg => ?_
      obtain ⟨hba, hu⟩ := hb hg
      exact ⟨hba.ne_never H (hbv.1.mono hg.types) hne, hba, hu (.inl hne)⟩
  · exact ⟨(he hg).1, fun hk => hup (hto.below hg) hk _ ((he hg).2 (hK hk))⟩

/-- Assigning a local. -/
theorem assignLocal_stays (h : W.At σ S) {n : Name} (hn : n ∈ W.names)
    (hb : σ.types.Values W.classes b)
    (hJ : σ.Grows τ → Assigns τ n a L₁ L' ∧ τ.types.Within b a ∧
      (b ≠ .never ∨ K → Locals.Under τ.types S.locals L₁))
    (hup : σ.Grows τ → K → ∀ Y, Locals.Under τ.types Y L₁ → Locals.Under τ.types Y L') :
    W.CompletesIn σ S (do
      assignLocal n b
      return b) (W.Stays τ K a L') := by
  unfold assignLocal
  by_cases hne : b = .never
  · simp only [hne, ne_eq, not_true_eq_false, if_false, pure_bind]
    rw [hne] at hb hJ
    refine .pure h ⟨hb, fun hg => ⟨(hJ hg).2.1, fun hk => ?_⟩⟩
    have hk := hk.resolve_left fun h => h rfl
    exact hup hg hk _ ((hJ hg).2.2 (.inr hk))
  · simp only [ne_eq, hne, not_false_eq_true, if_true, bind_assoc]
    refine .local? (.bind_safe (.union h (h.scope.locals.getD_values n (.never h.ok.types)) hb)
      (.union _ _) fun w σ₁ S₁ h₁ hto ⟨hj, hwv, hS⟩ => ?_)
    subst hS
    refine .bind_safe (.setLocal h₁ hn hwv) (.setLocal n w) fun _ σ₂ S₂ h₂ hto₂ ⟨hσ, hS⟩ => ?_
    subst hσ hS
    refine .pure h₂ ⟨hb.mono h.ok.types hto.extend.types, fun hg => ?_⟩
    obtain ⟨hassign, hba, hu⟩ := hJ (hto.below hg)
    refine ⟨hba, fun _ => ?_⟩
    have hu := hu (.inl hne)
    rcases hassign with ⟨hnever, -⟩ | ⟨-, v, hv, rfl⟩
    · exact absurd hnever (hba.ne_never H ((hb.mono h.ok.types hto.extend.types).1.mono hg.types) hne)
    · exact hu.insert ((hj.mono hg.types).within hv (hu.getD_never H n) hba)

/-- Typing a branch with what the condition says about a local. -/
theorem narrowing_stays (h : W.At σ S) {test : Term} {branch : InferIn TypeId}
    {T : Locals → TypeId → Locals → Prop} (hgT : ∀ L a L', T L a L' → Locals.Grows τ.types L L')
    (hn : ∀ n ∈ tested? test, n ∈ W.names)
    (hJ : σ.Grows τ → Narrows τ test T L a L' ∧ Locals.Under τ.types S.locals L)
    (hb : ∀ σ₁ S₁ M M', W.At σ₁ S₁ → W.To σ S σ₁ S₁ → (σ₁.Grows τ → T M a M' ∧
        Locals.Under τ.types S₁.locals M ∧ ∀ n : Name, L[n]? ≠ none → M[n]? ≠ none) →
      W.CompletesIn σ₁ S₁ branch (W.Stays τ K a M')) :
    W.CompletesIn σ S (narrowing test branch) (W.Stays τ K a L') := by
  unfold narrowing
  unfold Narrows at hJ
  cases ht : tested? test with
  | none =>
    simp only [ht] at hJ ⊢
    exact hb σ S L L' h (.refl h) fun hg => ⟨(hJ hg).1, (hJ hg).2, fun _ hn => hn⟩
  | some n =>
    simp only [ht] at hJ ⊢
    obtain ⟨narrow, L₁, hN⟩ := exists_of_imp₂ fun hg : σ.Grows τ => (hJ hg).1
    obtain ⟨w, hN⟩ := exists_of_imp hN
    have hfull := h.scope.local_values h.ok n
    refine .local? (.bind_safe (.onTypes h (dropNil_settles h.ok.types hfull.1)) (.onTypes _)
      fun narrow' σ₁ S₁ h₁ hto₁ ⟨hnar, hS⟩ => ?_)
    subst hS
    have hfull₁ := hfull.mono h.ok.types hto₁.extend.types
    have hnv : σ₁.types.Values W.classes narrow' :=
      .of_inside ⟨hnar.1, hfull₁.1, fun m hm => ((hnar.2 m).1 hm).1⟩ hfull₁
    have hdrop : DropsNil σ₁.types (S₁.locals[n]?.getD .nil) narrow' := ⟨hfull₁.1, hnar.1, hnar.2⟩
    have hnarrow (hg : σ₁.Grows τ) : τ.types.Within narrow' narrow := fun m hm => by
      have hg₀ := hto₁.below hg
      obtain ⟨hm, hne⟩ := ((hdrop.mono hg.types).2.2 m).1 hm
      exact ((hN hg₀).1.2.2 m).2 ⟨(hJ hg₀).2.getD H n m hm, hne⟩
    refine .bind_safe (.setLocal h₁ (hn n ht) hnv) (.setLocal n narrow')
      fun _ σ₂ S₂ h₂ hto₂ ⟨hσ, hS⟩ => ?_
    subst hσ
    refine .attempt (hb σ₂ S₂ (L.insert n narrow) L₁ h₂ (hto₁.trans hto₂) fun hg => ?_)
      fun r σ₃ S₃ h₃ hto₃ hr => ?_
    · have hg₀ := hto₁.below hg
      refine ⟨(hN hg₀).2.1, hS ▸ (hJ hg₀).2.insert (hnarrow hg), fun k hk => ?_⟩
      rw [Std.ExtTreeMap.getElem?_insert]
      split
      · simp
      · exact hk
    · have he₃ := hto₃.extend
      refine .local? (.bind_safe (.union h₃ (hfull₁.mono h₂.ok.types he₃.types)
        (h₃.scope.locals.getD_values n (hnv.mono h₂.ok.types he₃.types))) (.union _ _)
        fun w' σ₄ S₄ h₄ hto₄ ⟨hj, hwv, hS₄⟩ => ?_)
      subst hS₄
      refine .bind_safe (.setLocal h₄ (hn n ht) hwv) (.setLocal n w')
        fun _ σ₅ S₅ h₅ hto₅ ⟨hσ, hS₅⟩ => ?_
      subst hσ
      have under (hg : σ₅.Grows τ) (hu : Locals.Under τ.types S₄.locals L₁) :
          Locals.Under τ.types S₅.locals L' := by
        have hg₂ := hto₃.below (hto₄.below hg)
        have hg₀ := hto₁.below hg₂
        obtain ⟨-, hT, hw, rfl⟩ := hN hg₀
        obtain ⟨y, hy, hny⟩ := hgT _ _ _ hT n narrow (by simp)
        rw [hS₅]
        rw [hy] at hw
        exact hu.insert ((hj.mono hg.types).within hw ((hJ hg₀).2.getD H n)
          (hu.getD_of_some hy fun m hm => hny m (hnarrow hg₂ m hm)))
      have back (hg : σ₅.Grows τ) : σ₃.Grows τ := hto₄.below hg
      refine ⟨r, σ₅, S₅, rfl, h₅, .refl h₅, ?_⟩
      cases r with
      | ok b =>
        refine ⟨hr.1.mono h₃.ok.types hto₄.extend.types, fun hg => ?_⟩
        obtain ⟨hba, hu⟩ := hr.2 (back hg)
        exact ⟨hba, fun hk => under hg (hu hk)⟩
      | error e => exact fun hg => ⟨(hr (back hg)).1, fun hk => under hg ((hr (back hg)).2 hk)⟩

/-- Typing the second branch from the locals `entry`, and joining it with a first one. -/
theorem joining_stays (h : W.At σ S) {entry : Locals} {first : TypeId} {other : InferIn TypeId}
    (hentry : W.LocalsOk σ entry) (hfirst : σ.types.Values W.classes first)
    (hJ : σ.Grows τ → Locals.Joins τ.types L₂ (c = .never) L₃ (d = .never) L' ∧
      τ.types.Joins c d a ∧ τ.types.Within first c ∧
      (first ≠ .never ∨ K → Locals.Under τ.types S.locals L₂))
    (hup₂ : σ.Grows τ → K → ∀ Y, Locals.Under τ.types Y L₂ → Locals.Under τ.types Y L')
    (hup₃ : σ.Grows τ → K → ∀ Y, Locals.Under τ.types Y L₃ → Locals.Under τ.types Y L')
    (ho : ∀ σ₁ S₁, W.At σ₁ S₁ → W.To σ S σ₁ S₁ → S₁.locals = entry →
      W.CompletesIn σ₁ S₁ other (W.Stays τ K d L₃)) :
    W.CompletesIn σ S (joining entry first other) (W.Stays τ K a L') := by
  unfold joining
  refine .locals (.bind_safe (.setLocals h hentry) (.setLocals entry)
    fun _ σ₁ S₁ h₁ hto₁ ⟨hσ, hS⟩ => ?_)
  subst hσ
  refine (ho σ₁ S₁ h₁ hto₁ (by rw [hS])).bind (fun d' σ₂ S₂ h₂ hto₂ ⟨hdv, hd⟩ => ?_)
    fun e σ' S' _ hto' he hg => ?_
  · have he₂ := hto₂.extend
    refine .locals (.bind_safe (joinLocals_safe h₂ (h.scope.locals.extend h.ok he₂)
      h₂.scope.locals (first = .never) (d' = .never)) (.joinLocals _ _ _ _)
      fun L₄ σ₃ S₃ h₃ hto₃ ⟨hS₃, hL, hj⟩ => ?_)
    subst hS₃
    refine .bind_safe (.setLocals h₃ hL) (.setLocals L₄) fun _ σ₄ S₄ h₄ hto₄ ⟨hσ, hS₄⟩ => ?_
    subst hσ
    have hfv := (hfirst.mono h.ok.types he₂.types).mono h₂.ok.types hto₃.extend.types
    have hdv₃ := hdv.mono h₂.ok.types hto₃.extend.types
    refine .of_safe (.union h₄ hfv hdv₃) (.union _ _) fun b σ' S' h' hto' ⟨hu, hbv, hS'⟩ => ?_
    subst hS'
    refine ⟨hbv, fun hg => ?_⟩
    have hg₃ := hto'.below hg
    have hg₂ := hto₃.below hg₃
    have hg₁ := hto₂.below hg₂
    obtain ⟨hJ', hcd, hfc, hu₂⟩ := hJ hg₁
    obtain ⟨hdd, hu₃⟩ := hd hg₂
    refine ⟨(hu.mono hg.types).within hcd hfc hdd, fun hk => ?_⟩
    rw [hS₄]
    refine .meets H (hj.mono hg₃.types) (K := K) (fun hf => ?_) (fun hd' => ?_) ?_
    · by_cases hne : first = .never
      · have hk : K := by simpa [hne] using hf
        exact hup₂ hg₁ hk _ (hu₂ (.inr hk))
      · have hc := hfc.ne_never H (hfv.1.mono hg₃.types) hne
        exact .left H (hu₂ (.inl hne)) (by simpa [hc] using hJ')
    · by_cases hne : d' = .never
      · have hk : K := by simpa [hne] using hd'
        exact hup₃ hg₁ hk _ (hu₃ (.inr hk))
      · have hd₀ := hdd.ne_never H (hdv₃.1.mono hg₃.types) hne
        exact .right H (hu₃ (.inl hne)) (by simpa [hd₀] using hJ')
    · by_cases hf : first = .never
      · by_cases hd' : d' = .never
        · refine .inr (.inr (hk.resolve_left fun h => h ?_))
          subst hf hd'
          exact (hu.inside (.refl h'.ok.types.has_never) (.refl h'.ok.types.has_never)).eq_never
            h'.ok.types
        · exact .inr (.inl (by simp [hd']))
      · exact .inl (by simp [hf])
  · exact ⟨(he hg).1, fun hk => hup₃ (hto₁.below (hto'.below hg)) hk _ ((he hg).2 hk)⟩

/-- Two things of which the second need not be evaluated. The second one is left without a value
here only if it binds nothing. -/
theorem connective_stays {x y : InferIn TypeId} {R : TypeId → Locals → Prop}
    (hx : W.CompletesIn σ S x (W.Stays τ K₁ a₁ L₁)) (hK : K → K₁)
    (hgR : ∀ c L₂, R c L₂ → Locals.Grows τ.types L₁ L₂)
    (hJ : σ.Grows τ → Follows a₁ L₁ (fun a L' => ∃ c L₂, R c L₂ ∧
      Locals.OrNils τ.types L₁ L₂ L' ∧ τ.types.Joins a₁ c a) a L')
    (hup : σ.Grows τ → K → ∀ Y, Locals.Under τ.types Y L₁ → Locals.Under τ.types Y L')
    (hy : ∀ c L₂ σ₁ S₁, W.At σ₁ S₁ → W.To σ S σ₁ S₁ →
      (σ₁.Grows τ → R c L₂ ∧ a₁ ≠ .never ∧ Locals.Under τ.types S₁.locals L₁) →
      W.CompletesIn σ₁ S₁ y (W.Stays τ True c L₂)) :
    W.CompletesIn σ S (do
      let b ← x
      unlessNever b do
        let bound ← locals
        let c ← y
        orNilExcept bound
        union b c) (W.Stays τ K a L') := by
  refine followed_stays H hx hK hup fun b σ₁ S₁ h₁ hto₁ hbv hb => .locals ?_
  obtain ⟨c, L₂, hc⟩ := exists_of_imp₂ fun hg : σ₁.Grows τ =>
    ((hJ (hto₁.below hg)).resolve_left fun h => (hb hg).1 h.1).2
  -- Adding `nil` to what the right operand alone has bound leads to `L'` in both passes.
  have up {Y : Locals} (hg : σ₁.Grows τ) (hY : Locals.Under τ.types Y L₂) :
      Locals.Under τ.types Y L' := by
    refine hY.widen (hc hg).2.1.grows fun n hn => ?_
    have := (hc hg).2.1 n
    simpa [hn] using this
  refine (hy c L₂ σ₁ S₁ h₁ hto₁ fun hg => ⟨(hc hg).1, (hb hg).1, (hb hg).2.2⟩).bind
    (fun c' σ₂ S₂ h₂ hto₂ ⟨hcv, hc'⟩ => ?_) fun e σ' S' _ hto' he hg =>
      ⟨(he hg).1, fun _ => up (hto'.below hg) ((he hg).2 trivial)⟩
  refine .bind_safe (orNilExcept_safe h₂ S₁.locals) (.orNilExcept _) fun _ σ₃ S₃ h₃ hto₃ hor => ?_
  have hle := hto₃.extend.types
  refine .of_safe (.union h₃ ((hbv.mono h₁.ok.types hto₂.extend.types).mono h₂.ok.types hle)
    (hcv.mono h₂.ok.types hle)) (.union _ _) fun w σ' S' h' hto' ⟨hj, hwv, hS⟩ => ?_
  subst hS
  refine ⟨hwv, fun hg => ?_⟩
  have hg₂ := hto₃.below (hto'.below hg)
  have hg₁ := hto₂.below hg₂
  obtain ⟨hR, hor', hj'⟩ := hc hg₁
  obtain ⟨hne, hba, hu₁⟩ := hb hg₁
  obtain ⟨hcc, hu₂⟩ := hc' hg₂
  refine ⟨(hj.mono hg.types).within hj' hba hcc, fun _ =>
    (up hg₁ (hu₂ (.inr trivial))).orNils H (hor.mono (hto'.below hg).types) fun n z hn hz => ?_⟩
  cases hl : L₁[n]? with
  | none => exact hor'.nil_mem H hl hz
  | some v =>
    obtain ⟨z', hz', hvz⟩ := ((hgR _ _ hR).trans hor'.grows) n v hl
    cases hz.symm.trans hz'
    exact hvz _ (hu₁.nil n v hn hl)

/-! ## Loops -/

omit H in
/-- The locals stay within `L'`, whether or not the computation ends in an error. -/
def StaysLocals (τ : State) (L' : Locals) (r : Except TypeError Unit) (σ' : State) (S' : Scope) :
    Prop :=
  σ'.Grows τ → (∀ e, r = .error e → e.IsDivergence) ∧ Locals.Under τ.types S'.locals L'

section
variable {test body : InferIn TypeId} {T R : Locals → TypeId → Locals → Prop} {S₀ : Scope}
  {E : Locals} (hgT : ∀ L a L', T L a L' → Locals.Grows τ.types L L')
  (hgR : ∀ L a L', R L a L' → Locals.Grows τ.types L L')
  (hn : σ₀.Grows τ → ∀ n : Name, E[n]? = none → L'[n]? = none)
  (ht : ∀ σ₁ S₁ M a M', W.At σ₁ S₁ → W.To σ₀ S₀ σ₁ S₁ →
    (σ₁.Grows τ → T M a M' ∧ Locals.Grows τ.types E M ∧ Locals.Under τ.types S₁.locals M) →
    W.CompletesIn σ₁ S₁ test (W.Stays τ True a M'))
  (hb : ∀ σ₁ S₁ M a M', W.At σ₁ S₁ → W.To σ₀ S₀ σ₁ S₁ →
    (σ₁.Grows τ → R M a M' ∧ Locals.Grows τ.types E M ∧ Locals.Under τ.types S₁.locals M) →
    W.CompletesIn σ₁ S₁ body (W.Stays τ True a M'))
include hgT hgR hn ht hb

/-- One round of typing a loop, from locals within those of the round `L` of the last pass. After it
the locals are within those of the next round, and what is not bound once the test has run for the
first time may be `nil` in the end. -/
theorem round_stays (h : W.At σ S) (hto₀ : W.To σ₀ S₀ σ S) {bound bound' : Option Locals}
    (again : Locals → InferIn Unit)
    (hJ : σ.Grows τ → Rounds τ.types T R bound L L' ∧ Locals.Grows τ.types E L ∧
      Locals.Under τ.types S.locals L ∧ ∀ C ∈ bound', ∀ (n : Name) b, C[n]? = none →
        L'[n]? = some b → .nil ∈ τ.types.members b)
    (ha : ∀ σ₁ S₁ L₁ bound₁ C, W.At σ₁ S₁ → W.To σ₀ S₀ σ₁ S₁ → (σ₁.Grows τ →
        Rounds τ.types T R bound₁ L₁ L' ∧ Locals.Grows τ.types E L₁ ∧
        Locals.Under τ.types S₁.locals L₁ ∧ ∀ (n : Name) b, C[n]? = none →
          L'[n]? = some b → .nil ∈ τ.types.members b) →
      W.CompletesIn σ₁ S₁ (again C) (StaysLocals τ L')) :
    W.CompletesIn σ S (do
      let before ← locals
      let a ← test
      let bound := bound'.getD (← locals)
      if a ≠ .never then
        let _ ← body
      if (← locals) = before then orNilExcept bound else again bound) (StaysLocals τ L') := by
  obtain ⟨a, L₁, hR⟩ := exists_of_imp₂ fun hg : σ.Grows τ => (hJ hg).1.round
  obtain ⟨L₂, hR⟩ := exists_of_imp hR
  have hunder (hg : σ.Grows τ) := by
    obtain ⟨hT, hno, hyes, hrest⟩ := hR hg
    exact hrest.under hgT hgR (hJ hg).2.1 hT hno hyes (hn (hto₀.below hg))
  have next {Y : Locals} (hg : σ.Grows τ) := (hunder hg).2.2.1 Y
  have up {Y : Locals} (hg : σ.Grows τ) := (hunder hg).2.2.2 Y
  refine .locals ((ht σ S L a L₁ h hto₀ fun hg => ⟨(hR hg).1, (hJ hg).2.1, (hJ hg).2.2.1⟩).bind
    (fun a' σ₁ S₁ h₁ hto₁ ⟨hav, ha'⟩ => .locals ?_) fun e σ' S' _ hto' he hg => ⟨?_, ?_⟩)
  · set C := bound'.getD S₁.locals with hC
    have unbound (hg : σ₁.Grows τ) : ∀ (n : Name) b, C[n]? = none → L'[n]? = some b →
        .nil ∈ τ.types.members b := by
      cases hb' : bound' with
      | some D =>
        exact fun n b hn hb =>
          (hJ (hto₁.below hg)).2.2.2 D hb' n b (by simpa [hC, hb'] using hn) hb
      | none =>
        intro n b hn hb
        rw [hC, hb'] at hn
        exact (up (hto₁.below hg) (next (hto₁.below hg) ((ha' hg).2 (.inr trivial)))).nil n b hn hb
    have finish {σ₂ : State} {S₂ : Scope} (h₂ : W.At σ₂ S₂) (hto₂ : W.To σ₁ S₁ σ₂ S₂)
        (hu : σ₂.Grows τ → Locals.Under τ.types S₂.locals L₂) : W.CompletesIn σ₂ S₂
          (do if (← locals) = S.locals then orNilExcept C else again C) (StaysLocals τ L') := by
      refine .locals ?_
      split
      · refine .of_safe (orNilExcept_safe h₂ C) (.orNilExcept C) fun _ σ' S' _ hto' hor hg =>
          ⟨nofun, ?_⟩
        have hg₂ := hto'.below hg
        have hg₁ := hto₂.below hg₂
        exact (up (hto₁.below hg₁) (hu hg₂)).orNils H (hor.mono hg.types) (unbound hg₁)
      · refine ha σ₂ S₂ L₂ (some (bound.getD L₁)) C h₂ (hto₀.trans (hto₁.trans hto₂)) fun hg => ?_
        have hg₁ := hto₂.below hg
        have hg₀ := hto₁.below hg₁
        exact ⟨(hR hg₀).2.2.2, (hunder hg₀).1.trans (hunder hg₀).2.1, hu hg, unbound hg₁⟩
    by_cases hne : a' = .never
    · simp only [hne, ne_eq, not_true_eq_false, if_false]
      exact finish h₁ (.refl h₁) fun hg => next (hto₁.below hg) ((ha' hg).2 (.inr trivial))
    · simp only [ne_eq, hne, not_false_eq_true, if_true]
      obtain ⟨c, hc⟩ := exists_of_imp fun hg : σ₁.Grows τ => (hR (hto₁.below hg)).2.2.1
        ((ha' hg).1.ne_never H (hav.1.mono hg.types) hne)
      refine (hb σ₁ S₁ L₁ c L₂ h₁ (hto₀.trans hto₁) fun hg => ⟨hc hg, (hunder (hto₁.below hg)).1,
        (ha' hg).2 (.inr trivial)⟩).bind (fun c' σ₂ S₂ h₂ hto₂ ⟨_, hc'⟩ =>
          finish h₂ hto₂ fun hg => (hc' hg).2 (.inr trivial)) fun e σ' S' _ hto' he hg => ⟨?_, ?_⟩
      · rintro _ ⟨⟩
        exact (he hg).1
      · exact up (hto₁.below (hto'.below hg)) ((he hg).2 trivial)
  · rintro _ ⟨⟩
    exact (he hg).1
  · exact up (hto'.below hg) (next (hto'.below hg) ((he hg).2 trivial))

/-- Typing a loop. -/
theorem inferLoop_stays (h : W.At σ S) (hto₀ : W.To σ₀ S₀ σ S) (ctx : Context) (site : Site)
    (left : Nat) {bound : Option Locals} (bound' : Option Locals)
    (hJ : σ.Grows τ → Rounds τ.types T R bound L L' ∧ Locals.Grows τ.types E L ∧
      Locals.Under τ.types S.locals L ∧ ∀ C ∈ bound', ∀ (n : Name) b, C[n]? = none →
        L'[n]? = some b → .nil ∈ τ.types.members b) :
    W.CompletesIn σ S (inferLoop ctx site test body left bound') (StaysLocals τ L') := by
  induction left generalizing σ S L bound bound' with
  | zero =>
    rw [inferLoop_zero]
    refine round_stays H hgT hgR hn ht hb h hto₀ (fun _ => throw _) hJ
      fun σ₁ S₁ L₁ bound₁ C h₁ hto₁ hJ₁ => .throw h₁ fun hg => ⟨?_, ?_⟩
    · rintro _ ⟨⟩
      exact ⟨_, _, rfl⟩
    · obtain ⟨hr, hE, hu, -⟩ := hJ₁ hg
      exact hu.upTo hE (hr.grows hgT hgR) (hn (hto₁.below hg))
  | succ left ih =>
    rw [inferLoop_succ]
    exact round_stays H hgT hgR hn ht hb h hto₀
      (fun b => inferLoop ctx site test body left (some b)) hJ
      fun σ₁ S₁ L₁ bound₁ C h₁ hto₁ hJ₁ => ih h₁ hto₁ (some C) fun hg =>
        ⟨(hJ₁ hg).1, (hJ₁ hg).2.1, (hJ₁ hg).2.2.1, fun D hD => by cases hD; exact (hJ₁ hg).2.2.2⟩

end

end

end World

end Multimethod
