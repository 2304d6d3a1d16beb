import Multimethod.Proofs.Inference.Top

/-!
# The final typing of the top level

If everything that the top level calls has been found to return, freezing does not change what it
answers, and typing the top level once more finds what the last pass has found
(`World.Found.agrees`). A type without values can only come from a callee that does not return, so
the top level then has a type with values (`World.Found.type_ne_never`).
-/

namespace Multimethod

open Inference TypeTable

/-! ## Where a local without values comes from -/

namespace Inference

variable {t : TypeTable} {L L₁ L₂ L' A B : Locals}

/-- A local that has no values had none before. -/
def Locals.Keeps (L L' : Locals) : Prop := ∀ n : Name, L'[n]? = some .never → L[n]? = some .never

theorem Locals.Keeps.refl : Locals.Keeps L L := fun _ h => h

theorem Locals.Keeps.trans (h : Locals.Keeps L L₁) (h' : Locals.Keeps L₁ L') : Locals.Keeps L L' :=
  fun n hn => h n (h' n hn)

variable (H : t.WF)
include H

theorem Locals.OrNils.keeps {bound : Locals} (h : Locals.OrNils t bound L L') :
    Locals.Keeps L L' := by
  intro n hn
  have hb := h n
  cases ha : L[n]? with
  | none => simp [ha, hn] at hb
  | some a =>
    rw [ha] at hb
    dsimp only at hb
    split at hb
    · exact hb.symm.trans hn
    · obtain ⟨b, hb, hj⟩ := hb
      cases hb.symm.trans hn
      nomatch (hj.eq_never H).2

theorem Locals.Joins.keeps {ad bd : Bool} (h : Locals.Joins t A ad B bd L')
    (hA : Locals.Keeps L A) (hB : Locals.Keeps L B) : Locals.Keeps L L' := by
  have both (hj : ∀ n : Name, (A[n]? = none ∧ B[n]? = none ∧ L'[n]? = none) ∨
      (A[n]? ≠ none ∨ B[n]? ≠ none) ∧ ∃ c, L'[n]? = some c ∧
        t.Joins (A[n]?.getD (if ad then .never else .nil))
          (B[n]?.getD (if ad then .never else .nil)) c) : Locals.Keeps L L' := by
    intro n hn
    rcases hj n with ⟨-, -, hno⟩ | ⟨hsome, c, hc, hj⟩
    · simp [hno] at hn
    · cases hc.symm.trans hn
      obtain ⟨ha, hb⟩ := hj.eq_never H
      rcases hsome with hs | hs
      · obtain ⟨a, has⟩ := Option.ne_none_iff_exists'.1 hs
        rw [has, Option.getD_some] at ha
        exact hA n (ha ▸ has)
      · obtain ⟨b, hbs⟩ := Option.ne_none_iff_exists'.1 hs
        rw [hbs, Option.getD_some] at hb
        exact hB n (hb ▸ hbs)
  cases ad <;> cases bd
  · exact both h
  · exact (show L' = A from h) ▸ hA
  · exact (show L' = B from h) ▸ hB
  · exact both h

theorem Rounds.keeps {T R : Locals → TypeId → Locals → Prop} {bound : Option Locals}
    (hT : ∀ L a L', T L a L' → Locals.Keeps L L') (hR : ∀ L a L', R L a L' → Locals.Keeps L L')
    (h : Rounds t T R bound L L') : Locals.Keeps L L' := by
  induction h with
  | stop _ _ _ hor => exact hor.keeps H
  | @next bound L a L₁ L₂ L' ht hno hyes hne _ ih =>
    refine .trans ?_ ih
    by_cases ha : a = .never
    · rw [hno ha]
      exact hT _ _ _ ht
    · obtain ⟨b, hb⟩ := hyes ha
      exact (hT _ _ _ ht).trans (hR _ _ _ hb)

end Inference

namespace World

variable {W : World} {σ σ' τ : State} {U : Scope} {L L' : Locals} {a : TypeId}

theorem Assigns.keeps (H : τ.types.WF) {n : Name} (h : Assigns τ n a L L') : Locals.Keeps L L' := by
  intro m hm
  rcases h with ⟨-, rfl⟩ | ⟨hne, b, hj, rfl⟩
  · exact hm
  · rw [Std.ExtTreeMap.getElem?_insert] at hm
    split at hm
    · cases hm
      exact absurd (hj.eq_never H).2 hne
    · exact hm

theorem Narrows.keeps (H : τ.types.WF) {test : Term} {T : Locals → TypeId → Locals → Prop}
    (hT : ∀ L a L', T L a L' → Locals.Keeps L L') (h : Narrows τ test T L a L') :
    Locals.Keeps L L' := by
  unfold Narrows at h
  split at h
  · exact hT _ _ _ h
  · obtain ⟨narrow, L₁, w, -, hb, hj, rfl⟩ := h
    intro m hm
    rw [Std.ExtTreeMap.getElem?_insert] at hm
    split at hm
    · rename_i n hn heq
      cases hm
      have := (hj.eq_never H).1
      rw [Std.compare_eq_iff_eq.1 heq] at this
      cases hl : L[m]? with
      | none => rw [hl] at this; cases this
      | some b => simpa [hl] using this
    · have := hT _ _ _ hb m hm
      rwa [Std.ExtTreeMap.getElem?_insert, if_neg ‹_›] at this

mutual

theorem Typed.keeps (H : τ.types.WF) {t : Term} {L : Locals} {a : TypeId} {L' : Locals}
    (h : W.Typed τ U t L a L') : Locals.Keeps L L' := by
  cases t <;> simp only [Typed] at h <;> obtain ⟨-, h⟩ := h
  case nil | bool | int | float | self | var => obtain ⟨-, rfl⟩ := h; exact .refl
  case ivar | const => obtain ⟨rfl, -⟩ := h; exact .refl
  case ret => obtain ⟨-, rfl, -⟩ := h; exact .refl
  case assign =>
    obtain ⟨L₁, hv, ha⟩ := h
    exact (hv.keeps H).trans (ha.keeps H)
  case setIvar => exact h.1.keeps H
  case call =>
    obtain ⟨b, L₁, hr, ⟨-, -, rfl⟩ | ⟨-, as, has, -⟩⟩ := h
    · exact hr.keeps H
    · exact (hr.keeps H).trans (has.keeps H)
  case send =>
    obtain ⟨as, has, -⟩ := h
    exact has.keeps H
  case ifThen =>
    obtain ⟨b, L₁, ht, ⟨-, -, rfl⟩ | ⟨-, c, L₂, hy, hj, -⟩⟩ := h
    · exact ht.keeps H
    · exact hj.keeps H ((ht.keeps H).trans (hy.keeps H fun _ _ _ h => h.keeps H)) (ht.keeps H)
  case ifElse =>
    obtain ⟨b, L₁, ht, ⟨-, -, rfl⟩ | ⟨-, c, L₂, d, L₃, hy, hn, hj, -⟩⟩ := h
    · exact ht.keeps H
    · exact hj.keeps H ((ht.keeps H).trans (hy.keeps H fun _ _ _ h => h.keeps H))
        ((ht.keeps H).trans (hn.keeps H))
  case loop =>
    exact h.2.keeps H (fun _ _ _ h => h.keeps H) fun _ _ _ h => h.keeps H
  case andAlso | orElse =>
    obtain ⟨b, L₁, hl, ⟨-, -, rfl⟩ | ⟨-, c, L₂, hr, hor, -⟩⟩ := h
    · exact hl.keeps H
    · exact (hl.keeps H).trans ((hr.keeps H).trans (hor.keeps H))
  case retValue =>
    obtain ⟨-, b, hv, -⟩ := h
    exact hv.keeps H
  case block => exact TypedStmts.keeps H h
  case primitive =>
    obtain ⟨as, has, -⟩ := h
    exact has.keeps H

theorem TypedArgs.keeps (H : τ.types.WF) {ts : List Term} {L : Locals} {as : Option (List TypeId)}
    {L' : Locals} (h : W.TypedArgs τ U ts L as L') : Locals.Keeps L L' := by
  cases ts <;> simp only [TypedArgs] at h
  case nil => obtain ⟨-, rfl⟩ := h; exact .refl
  case cons =>
    obtain ⟨a, L₁, ht, ⟨-, -, rfl⟩ | ⟨-, as₁, has, -⟩⟩ := h
    · exact ht.keeps H
    · exact (ht.keeps H).trans (has.keeps H)

theorem TypedStmts.keeps (H : τ.types.WF) {last : TypeId} {ts : List Term} {L : Locals}
    {a : TypeId} {L' : Locals} (h : W.TypedStmts τ U last ts L a L') : Locals.Keeps L L' := by
  cases ts <;> simp only [TypedStmts] at h
  case nil => obtain ⟨-, rfl⟩ := h; exact .refl
  case cons =>
    obtain ⟨b, L₁, ht, ⟨-, -, rfl⟩ | ⟨-, h⟩⟩ := h
    · exact ht.keeps H
    · exact (ht.keeps H).trans (h.keeps H)

end

/-! ## Where a type without values comes from -/

theorem combinations_ne_nil {t : TypeTable} (H : t.WF) {receiver : Option TypeId}
    {args : List TypeId} (hr : ∀ a ∈ receiver, t.Has a ∧ a ≠ .never)
    (ha : ∀ a ∈ args, t.Has a ∧ a ≠ .never) : Registry.combinations t receiver args ≠ [] := by
  have member {a : TypeId} (h : t.Has a ∧ a ≠ .never) : ∃ m, m ∈ t.members a :=
    List.exists_mem_of_ne_nil _ fun hn => h.2 ((H.members_eq_nil h.1).1 hn)
  obtain ⟨r, hr⟩ : ∃ r, r ∈ Registry.receivers t receiver := by
    cases receiver with
    | none => exact ⟨none, .head _⟩
    | some a =>
      obtain ⟨m, hm⟩ := member (hr a rfl)
      exact ⟨some m, List.mem_map.2 ⟨m, hm, rfl⟩⟩
  obtain ⟨c, hc⟩ : ∃ c, List.Forall₂ (fun m a => m ∈ t.members a) c args := by
    clear hr
    induction args with
    | nil => exact ⟨[], .nil⟩
    | cons a args ih =>
      obtain ⟨m, hm⟩ := member (ha a (.head _))
      obtain ⟨c, hc⟩ := ih fun b hb => ha b (.tail _ hb)
      exact ⟨m :: c, .cons hm hc⟩
  exact List.ne_nil_of_mem (Registry.mem_combinations.2 ⟨hr, hc⟩)

/-- All that a body calls has been found to return. -/
def Returning (σ : State) (b : Body) : Prop := ∀ s, CalledBy b s → σ.returnType s ≠ .never

section
variable (H : τ.types.WF) (hcalls : Returning τ U.body)
include H hcalls

theorem Calls.ne_never {e : ExprId} {k : Name} {receiver : Option TypeId} {args : List TypeId}
    (hr : ∀ a ∈ receiver, τ.types.Has a ∧ a ≠ .never)
    (ha : ∀ a ∈ args, τ.types.Has a ∧ a ≠ .never) (h : W.Calls τ U e k receiver args a) :
    a ≠ .never := by
  obtain ⟨⟨r, c⟩, hrc⟩ := List.exists_mem_of_ne_nil _ (combinations_ne_nil H hr ha)
  obtain ⟨callee, hf, -, b, hb, hin⟩ := h r c hrc
  rintro rfl
  cases hin.eq_never H
  cases callee with
  | specialization s =>
    obtain ⟨i, hi, hret⟩ := hb
    exact hcalls s ⟨e, r, c, hf⟩ (by simp [State.returnType, hi, hret])
  | allocate c | new c i =>
    rw [Answers, H.shape_never] at hb
    cases hb

omit hcalls in
theorem Applies.ne_never {op : Primitive} {as : List TypeId} (h : W.Applies τ op as a) :
    a ≠ .never := by
  rintro rfl
  unfold Applies at h
  split at h
  · cases h
  · split at h
    · cases h
    · cases h
    · obtain ⟨number, hj, -, hn⟩ := h
      split at hn
      · cases hn
      · split at hn
        · cases hn
        · rw [← hn] at hj
          nomatch (hj.eq_never H).1

variable (hself : ∀ b ∈ U.self, τ.types.Has b ∧ b ≠ .never) (hreturns : U.returns = .never)
include hself hreturns

omit hcalls hreturns in
theorem sendReceiver_ne_never {k : Name} :
    ∀ b ∈ W.sendReceiver τ.types U.self k, τ.types.Has b ∧ b ≠ .never := by
  intro b hb
  obtain ⟨hb, -⟩ := Option.mem_filter_iff.1 hb
  cases hb
  cases hs : U.self with
  | none => exact ⟨H.has_object, nofun⟩
  | some b => exact hself b hs

set_option linter.unusedSectionVars false in
mutual

/-- What is typed from locals with values has a type with values, if nothing returns early. -/
theorem Typed.ne_never {t : Term} {L : Locals} {a : TypeId} {L' : Locals}
    (h : W.Typed τ U t L a L') (hL : ∀ n : Name, L[n]? ≠ some .never) : a ≠ .never := by
  have next {u : Term} {L₁ : Locals} {b : TypeId} (hu : W.Typed τ U u L b L₁) (n : Name) :
      L₁[n]? ≠ some .never := fun hn => hL n (hu.keeps H n hn)
  cases t <;> simp only [Typed] at h <;> obtain ⟨-, h⟩ := h
  case nil | bool | int | float => rw [h.1]; decide
  case self =>
    rw [h.1]
    cases hs : U.self with
    | none => decide
    | some b => exact (hself b hs).2
  case var n =>
    rw [h.1]
    cases hn : L[n]? with
    | none => decide
    | some b => exact fun hb => hL n (hn.trans (congrArg some hb))
  case assign =>
    obtain ⟨L₁, hv, -⟩ := h
    exact hv.ne_never hL
  case ivar =>
    obtain ⟨-, h⟩ := h
    split at h
    · rw [h]; decide
    · rintro rfl
      nomatch (h.eq_never H).2
  case setIvar => exact h.1.ne_never hL
  case const =>
    obtain ⟨-, c, -, hs⟩ := h
    rintro rfl
    rw [H.shape_never] at hs
    cases hs
  case call =>
    obtain ⟨b, L₁, hr, ⟨hb, -⟩ | ⟨hb, as, has, h⟩⟩ := h
    · exact absurd hb (hr.ne_never hL)
    · obtain ⟨as, rfl, hne⟩ := has.ne_never (next hr)
      have hrb : τ.types.Has b := hr.has
      exact Calls.ne_never H hcalls (fun c hc => by cases hc; exact ⟨hrb, hb⟩) hne h
  case send =>
    obtain ⟨as, has, h⟩ := h
    obtain ⟨as, rfl, hne⟩ := has.ne_never hL
    exact Calls.ne_never H hcalls (sendReceiver_ne_never H hself) hne h
  case ifThen =>
    obtain ⟨b, L₁, ht, ⟨hb, -⟩ | ⟨-, c, L₂, -, -, hj⟩⟩ := h
    · exact absurd hb (ht.ne_never hL)
    · rintro rfl
      nomatch (hj.eq_never H).2
  case ifElse =>
    obtain ⟨b, L₁, ht, ⟨hb, -⟩ | ⟨-, c, L₂, d, L₃, -, hn, -, hj⟩⟩ := h
    · exact absurd hb (ht.ne_never hL)
    · rintro rfl
      exact hn.ne_never (next ht) (hj.eq_never H).2
  case loop => rw [h.1]; decide
  case andAlso | orElse =>
    obtain ⟨b, L₁, hl, ⟨hb, -⟩ | ⟨-, c, L₂, -, -, hj⟩⟩ := h
    · exact absurd hb (hl.ne_never hL)
    · rintro rfl
      exact hl.ne_never hL (hj.eq_never H).1
  case ret =>
    rw [hreturns] at h
    nomatch h.2.2.eq_never H
  case retValue =>
    obtain ⟨-, b, hv, hin⟩ := h
    rw [hreturns] at hin
    exact absurd (hin.eq_never H) (hv.ne_never hL)
  case block => exact TypedStmts.ne_never h hL (by decide)
  case primitive =>
    obtain ⟨as, has, h⟩ := h
    obtain ⟨as, rfl, -⟩ := has.ne_never hL
    exact Applies.ne_never H h

theorem TypedArgs.ne_never {ts : List Term} {L : Locals} {as : Option (List TypeId)}
    {L' : Locals} (h : W.TypedArgs τ U ts L as L') (hL : ∀ n : Name, L[n]? ≠ some .never) :
    ∃ as', as = some as' ∧ ∀ a ∈ as', τ.types.Has a ∧ a ≠ .never := by
  cases ts <;> simp only [TypedArgs] at h
  case nil => exact ⟨[], h.1, by simp⟩
  case cons =>
    obtain ⟨a, L₁, ht, ⟨ha, -⟩ | ⟨ha, as₁, has, rfl⟩⟩ := h
    · exact absurd ha (ht.ne_never hL)
    · obtain ⟨as, rfl, hne⟩ := has.ne_never fun n hn => hL n (ht.keeps H n hn)
      refine ⟨a :: as, rfl, fun b hb => ?_⟩
      rcases List.mem_cons.1 hb with rfl | hb
      · exact ⟨ht.has, ha⟩
      · exact hne b hb

theorem TypedStmts.ne_never {last : TypeId} {ts : List Term} {L : Locals} {a : TypeId}
    {L' : Locals} (h : W.TypedStmts τ U last ts L a L') (hL : ∀ n : Name, L[n]? ≠ some .never)
    (hlast : last ≠ .never) : a ≠ .never := by
  cases ts <;> simp only [TypedStmts] at h
  case nil => exact h.1 ▸ hlast
  case cons =>
    obtain ⟨b, L₁, ht, ⟨hb, -⟩ | ⟨hb, h⟩⟩ := h
    · exact absurd hb (ht.ne_never hL)
    · exact h.ne_never (fun n hn => hL n (ht.keeps H n hn)) hb

end

theorem TypedTop.ne_never {last : TypeId} {ts : List Term} {L : Locals} {a : TypeId} {L' : Locals}
    (h : W.TypedTop τ U last ts L a L') (hL : ∀ n : Name, L[n]? ≠ some .never)
    (hlast : last ≠ .never) : a ≠ .never := by
  induction ts generalizing last L with
  | nil => exact h.1 ▸ hlast
  | cons t ts ih =>
    obtain ⟨b, L₁, ht, h⟩ := h
    exact ih h (fun n hn => hL n (ht.keeps H n hn))
      (ht.ne_never H hcalls hself hreturns hL)

end

/-! ## Typing the top level once more -/

variable {σ₀ σ₁ : State} {top : TopResult}

/-- The top level has a type with values if all that it calls returns. -/
theorem Found.type_ne_never (hf : W.Found σ σ' top U) (he : top.errors = [])
    (hc : σ'.changed = false) (hret : Returning σ' top.body) : top.type ≠ .never := by
  intro htype
  obtain ⟨a, htyped, hj⟩ := hf.typed he hc σ' (hf.ok.later_refl _)
  rw [htype] at hj
  have H := hf.ok.types
  obtain ⟨ha, hreturns⟩ := hj.eq_never H
  have hself : ∀ b ∈ U.self, σ'.types.Has b ∧ b ≠ .never := by simp [hf.self]
  exact htyped.ne_never H (hf.body ▸ hret) hself hreturns (by simp) (by decide) ha

/-- Freezing does not change what returns. -/
theorem later_frozen (h : W.Ok σ) {b : Body} (hret : Returning σ b) :
    Later σ (frozen σ) (CalledBy b) where
  wf := h.types
  types := le_refl _
  hierarchy := rfl
  keys s := by
    rw [show (frozen σ).specs.get? s = _ from Specializations.get?_freezeAll, Option.map_map]
    exact congrArg (Option.map · _) (funext Specialization.key_freeze)
  returns s hs := by
    rw [show (frozen σ).specs.get? s = _ from Specializations.get?_freezeAll]
    cases hi : σ.specs.get? s with
    | none => rfl
    | some i =>
      have hne : i.returnType ≠ .never := by simpa [State.returnType, hi] using hret s hs
      simp only [Option.map_some, Specialization.freeze, if_neg hne]
      split <;> rfl

/-- What a pass has found is found again in the frozen state, if all that the top level calls
returns. -/
theorem Found.agrees (hf : W.Found σ₀ σ₁ top U) (he : top.errors = [])
    (hc : σ₁.changed = false) (hret : Returning σ₁ top.body)
    (h : W.answer = Infer.visit W.ctx (nestingBound W.ctx (frozen σ₁))) :
    inferTop W.ctx (frozen σ₁) = some (top, frozen σ₁) :=
  hf.again he hc _ (later_frozen hf.ok hret) (recalls_frozen σ₁ h) h

/-- All that the top level calls is stored. -/
theorem Found.returning (hf : W.Found σ₀ σ₁ top U) (h : ∀ s i, CalledBy top.body s →
    σ₁.specs.get? s = some i → i.returnType ≠ .never) : Returning σ₁ top.body := by
  rintro s ⟨e, r, c, hrow⟩
  obtain ⟨_, _, -, -, ⟨⟨m, -, hfind⟩, -, -⟩, -⟩ :=
    hf.scope.rows e r c _ (by rw [hf.body]; exact hrow)
  obtain ⟨i, hi, -⟩ := Specializations.find?_eq_some.1 hfind
  simpa [State.returnType, hi] using h s i ⟨e, r, c, hrow⟩ hi

/-- In a frozen state everything returns. -/
theorem returning_frozen (hidle : AllIdle σ₁) (h : W.Extends (frozen σ₁) σ')
    (hc : σ'.changed = false) {self : Option TypeId} {b : Body} (hrows : W.RowsOk σ' self b) :
    Returning σ' b := by
  rintro s ⟨e, r, c, hf⟩ hn
  obtain ⟨_, _, -, -, ⟨⟨m, -, hfind⟩, -, -⟩, -⟩ := hrows e r c _ hf
  obtain ⟨j, hj, -⟩ := Specializations.find?_eq_some.1 hfind
  have hsame := (h.same hc).2 s
  rw [hj, Option.map_some] at hsame
  obtain ⟨k, hk, hkj⟩ := Option.map_eq_some_iff.1 hsame.symm
  obtain ⟨i, hi, rfl⟩ := get?_frozen hk
  have hjn : j.returnType = .never := by simpa [State.returnType, hj] using hn
  exact Specialization.returnType_freeze (by simp [hidle s i hi]) ((congrArg Prod.snd hkj).trans hjn)

end World

end Multimethod
