import Multimethod.Proofs.Pass.Call

/-!
# Reads, operands and arguments in an earlier pass

What an earlier pass reads has fewer members than in the last pass, and so have the results of
operations on operands that have fewer members. Calls have no combinations but those of the last
pass (`World.inferCallAt_stays`).
-/

namespace Multimethod

open Inference TypeTable InferIn

namespace InferIn

theorem Sure.assignIvar (n : Name) (a : TypeId) : Sure (assignIvar n a) := by
  refine .bind .scope fun S => ?_
  dsimp only
  split
  · exact .pure ()
  · split
    · refine .bind (fun _ _ _ h => ⟨_, by cases h; rfl⟩) fun s => .bind (.onTypes _) fun p =>
        fun _ _ _ h => ⟨_, by cases h; rfl⟩
    · exact .pure ()

end InferIn

namespace World

variable {W : World} {τ σ₀ σ σ₁ σ' : State} {S S₁ S' U : Scope} {K K₁ : Prop}
  {visit : SpecId → Infer TypeId} {a b : TypeId} {L L₁ L' : Locals} {B : List Name}

section
variable (h : W.At σ S)
include h

/-! ## What is read -/

/-- Reading an instance variable. -/
theorem readIvar_stays (H : τ.types.WF) (n : Name) (hJ : σ.Grows τ → S.selfClass = U.selfClass ∧
    (match U.selfClass with
      | none => a = .nil
      | some c => τ.types.Joins ((τ.hierarchy.ivarType c n).getD .never) .nil a) ∧
    Locals.Under τ.types S.locals L') :
    W.CompletesIn σ S (readIvar n) (W.Stays τ K a L') := by
  unfold readIvar
  refine .scope ?_
  cases hc : S.selfClass with
  | none =>
    refine .pure h ⟨.nil h.ok.types W.five_le, fun hg => ?_⟩
    obtain ⟨hself, ha, hu⟩ := hJ hg
    rw [← hself, hc] at ha
    rw [show a = .nil from ha]
    exact ⟨.refl, fun _ => hu⟩
  | some c =>
    refine .get ?_
    have hv := h.ok.ivarType_values c n
    refine .of_safe (.onTypes h (orNil_joins h.ok.types hv.1)) (.onTypes _)
      fun b σ' S' h' hto' ⟨hj, hS⟩ => ?_
    subst hS
    refine ⟨.of_joins hj (hv.mono h.ok.types hto'.extend.types) (.nil h'.ok.types W.five_le),
      fun hg => ?_⟩
    have hg₀ := hto'.below hg
    obtain ⟨hself, ha, hu⟩ := hJ hg₀
    rw [← hself, hc] at ha
    refine ⟨(hj.mono hg.types).within ha ?_ .refl, fun _ => hu⟩
    show τ.types.Within ((σ.hierarchy.ivarType c n).getD .never) _
    cases hi : σ.hierarchy.ivarType c n with
    | none => exact .never H
    | some v =>
      obtain ⟨w, hw, hin⟩ := hg₀.ivars c n v hi
      rw [hw]
      exact hin.2.2

/-- Assigning an instance variable. -/
theorem assignIvar_stays {n : Name} (hn : n ∈ W.names) (hb : σ.types.Values W.classes b)
    (hJ : σ.Grows τ → τ.types.Within b a ∧ (b ≠ .never ∨ K → Locals.Under τ.types S.locals L')) :
    W.CompletesIn σ S (do
      assignIvar n b
      return b) (W.Stays τ K a L') := by
  refine .bind_safe (assignIvar_safe h hn hb) (.assignIvar n b) fun _ σ₁ S₁ h₁ hto ⟨hS, _⟩ => ?_
  subst hS
  exact .pure h₁ ⟨hb.mono h.ok.types hto.extend.types, fun hg => hJ (hto.below hg)⟩

/-- A class used as a value. -/
theorem inferConst_stays (site : Site) (n : Name) (hJ : σ.Grows τ →
    (∃ c, W.tree.find? n = some c ∧ τ.types.shape a = .classObject c) ∧
    Locals.Under τ.types S.locals L') :
    W.CompletesIn σ S (inferConst W.ctx site n) (W.Stays τ K a L') := by
  unfold inferConst
  refine .get ?_
  have hfind : σ.hierarchy.find? n = W.tree.find? n := by rw [← h.ok.tree]; rfl
  simp only [Hierarchy.requireClass, hfind]
  cases hc : W.tree.find? n with
  | none =>
    refine .throw h fun hg => ?_
    obtain ⟨⟨c, hc', -⟩, -⟩ := hJ hg
    rw [hc] at hc'
    cases hc'
  | some c =>
    refine .of_safe (.onTypes h (classObject_settles h.ok.types c)) (.onTypes _)
      fun b σ' S' h' hto' hyields => ?_
    obtain ⟨hb, hS⟩ := hyields
    subst hS
    refine ⟨.of_shape (by rw [hb.2]; exact Hierarchy.find?_lt hc), fun hg => ?_⟩
    obtain ⟨⟨c', hc', hs⟩, hu⟩ := hJ (hto'.below hg)
    cases hc.symm.trans hc'
    have hba : b = a := (hb.1.mono hg.types).shape_inj (has_of_shape (by simp [hs]))
      (((hb.1.shape_eq hg.types).trans hb.2).trans hs.symm)
    exact ⟨hba ▸ .refl, fun _ => hu⟩

/-- Returning early. -/
theorem returns_stays (H : τ.types.WF) (hb : σ.types.Values W.classes b)
    (hJ : σ.Grows τ → K → Locals.Under τ.types S.locals L') :
    W.CompletesIn σ S (do
      let returns ← union (← scope).returns b
      modifyScope fun s => { s with returns }
      return .never) (W.Stays τ K a L') := by
  refine .scope (.bind_safe (.union h h.scope.returns hb) (.union _ _)
    fun r σ₁ S₁ h₁ hto₁ ⟨hj, hrv, hS⟩ => ?_)
  subst hS
  refine .bind_safe (.modifyScope h₁ (f := fun s => { s with returns := r })
    { h₁.scope with returns := hrv } { h₁.scope.records_refl with returns := hj.left } id)
    (.modifyScope _) fun _ σ₂ S₂ h₂ hto₂ ⟨hσ, hS⟩ => ?_
  subst hσ hS
  exact .pure h₂ ⟨.never h₂.ok.types, fun hg => ⟨.never H, fun hk =>
    hJ (hto₁.below hg) (hk.resolve_left fun h => h rfl)⟩⟩

/-! ## Operands -/

omit h in
/-- What arithmetic gives for operands that have fewer members. -/
theorem arithmetic_within {t : TypeTable} (H : t.WF) {number : TypeId}
    (hj : t.Joins .int .float number) {as bs : List TypeId} (hb : ∀ b ∈ bs, t.Has b)
    (h : List.Forall₂ (fun b a => b ≠ .never ∧ t.Within b a) bs as) :
    t.Within (if bs.all (· = .int) then .int else if bs.contains .float then .float else number)
      (if as.all (· = .int) then .int else if as.contains .float then .float else number) := by
  have hint : (t.shape .int).IsMember := by rw [H.shape_int]; trivial
  have hfloat : (t.shape .float).IsMember := by rw [H.shape_float]; trivial
  by_cases hall : as.all (· = .int) = true
  · have : bs.all (· = .int) = true := by
      rw [List.all_eq_true] at hall ⊢
      intro b hm
      obtain ⟨a, ha, hne, hw⟩ := h.exists_of_mem_left hm
      have := of_decide_eq_true (hall a ha)
      subst this
      exact decide_eq_true (hw.eq_of_isMember H (hb b hm) hne hint)
    rw [if_pos hall, if_pos this]
    exact .refl
  rw [if_neg hall]
  by_cases hfl : as.contains .float = true
  · obtain ⟨b, hm, hne, hw⟩ := h.exists_of_mem_right (List.contains_iff_mem.1 hfl)
    have hbf := hw.eq_of_isMember H (hb b hm) hne hfloat
    subst hbf
    have hnot : ¬ bs.all (· = .int) = true := fun hall => by
      have := of_decide_eq_true (List.all_eq_true.1 hall _ hm)
      cases this
    rw [if_pos hfl, if_neg hnot, if_pos (List.contains_iff_mem.2 hm)]
    exact .refl
  rw [if_neg hfl]
  split
  · exact hj.left.2.2
  · split
    · exact hj.right.2.2
    · exact .refl

/-- Arithmetic. Its operands are unfit in no pass if they fit in the last one. -/
theorem arithmetic_stays (H : τ.types.WF) (site : Site) {op : Primitive}
    (hop : op.isComparison ≠ true ∧ op ≠ .toInt ∧ op ≠ .toFloat) {as bs : List TypeId}
    (hb : ∀ b ∈ bs, σ.types.Values W.classes b) (hJ : σ.Grows τ → Applies W τ op as a ∧
      List.Forall₂ (fun b a => b ≠ .never ∧ τ.types.Within b a) bs as ∧
      Locals.Under τ.types S.locals L') :
    W.CompletesIn σ S (arithmetic W.ctx site op bs) (W.Stays τ K a L') := by
  have hint := Values.int (n := W.classes) h.ok.types W.five_le
  have hfloat := Values.float (n := W.classes) h.ok.types W.five_le
  refine .bind_safe (.union h hint hfloat) (.union _ _)
    fun number σ₁ S₁ h₁ hto hunion => .get ?_
  obtain ⟨hj, hnv, rfl⟩ := hunion
  have hb₁ : ∀ b ∈ bs, σ₁.types.Values W.classes b := fun b hm =>
    (hb b hm).mono h.ok.types hto.extend.types
  have applies (hg : σ₁.Grows τ) :
      (∀ b ∈ bs, W.tree.isSubtype τ.types b number = true) ∧ τ.types.Within
        (if bs.all (· = .int) then .int else if bs.contains .float then .float else number) a := by
    obtain ⟨happ, hw, -⟩ := hJ (hto.below hg)
    obtain ⟨number', hj', hsub, rfl⟩ := (applies_arithmetic hop).1 happ
    have hnn : number = number' := (hj.mono hg.types).inside hj'.left hj'.right |>.antisymm H
      (hj'.inside (hj.mono hg.types).left (hj.mono hg.types).right)
    subst hnn
    refine ⟨fun b hm => ?_, arithmetic_within H hj' (fun b hm => (hb₁ b hm).1.mono hg.types) hw⟩
    obtain ⟨a', ha', -, hba⟩ := hw.exists_of_mem_left hm
    exact W.tree.isSubtype_of_subset hba (hsub a' ha')
  dsimp only
  split
  · rename_i bad hbad
    refine .throw h₁ fun hg => ?_
    have hm := List.mem_of_find?_eq_some hbad
    have hsub := (applies hg).1 bad hm
    have := List.find?_some hbad
    rw [← Hierarchy.isSubtype_tree, h₁.ok.tree,
      ← W.tree.isSubtype_mono h₁.ok.types (hb₁ bad hm).1 hnv.1 hg.types, hsub] at this
    cases this
  · have result {b : TypeId} (hbv : σ₁.types.Values W.classes b)
        (heq : b = if bs.all (· = .int) then .int else
          if bs.contains .float then .float else number) :
        W.CompletesIn σ₁ S₁ (Pure.pure b) (W.Stays τ K a L') :=
      .pure h₁ ⟨hbv, fun hg => ⟨heq ▸ (applies hg).2, fun _ => (hJ (hto.below hg)).2.2⟩⟩
    by_cases hall : bs.all (· = .int) = true
    · rw [if_pos hall]
      exact result (.int h₁.ok.types W.five_le) (by rw [if_pos hall])
    · rw [if_neg hall]
      by_cases hfl : bs.contains .float = true
      · rw [if_pos hfl]
        exact result (.float h₁.ok.types W.five_le) (by rw [if_neg hall, if_pos hfl])
      · rw [if_neg hfl]
        exact result hnv (by rw [if_neg hall, if_neg hfl])

/-- A primitive operation. -/
theorem inferPrimitive_stays (H : τ.types.WF) (site : Site) (op : Primitive) {as bs : List TypeId}
    (hb : ∀ b ∈ bs, σ.types.Values W.classes b) (hJ : σ.Grows τ → Applies W τ op as a ∧
      List.Forall₂ (fun b a => b ≠ .never ∧ τ.types.Within b a) bs as ∧
      Locals.Under τ.types S.locals L') :
    W.CompletesIn σ S (inferPrimitive W.ctx site op bs) (W.Stays τ K a L') := by
  have known {b : TypeId} (hbv : σ.types.Values W.classes b)
      (ha : ∀ a, Applies W τ op as a → a = b) :
      W.CompletesIn σ S (Pure.pure b) (W.Stays τ K a L') :=
    .pure h ⟨hbv, fun hg => by
      obtain ⟨happ, -, hu⟩ := hJ hg
      exact ⟨ha a happ ▸ .refl, fun _ => hu⟩⟩
  unfold inferPrimitive
  by_cases hcmp : op.isComparison = true
  · rw [if_pos hcmp]
    exact known (.bool h.ok.types W.five_le) fun a ha => by
      unfold Applies at ha
      rwa [if_pos hcmp] at ha
  rw [if_neg hcmp]
  cases op with
  | toInt => exact known (.int h.ok.types W.five_le) fun _ ha => ha
  | toFloat => exact known (.float h.ok.types W.five_le) fun _ ha => ha
  | _ => exact arithmetic_stays h H site ⟨hcmp, by simp, by simp⟩ hb hJ

/-- Typing a call whose combinations are all answered. -/
theorem inferCallAt_stays (hv : W.Answering τ σ₀ visit) (hτ : W.Ok τ) (hidle : AllIdle τ)
    (h₀ : W.Extends σ₀ σ) (site : Site) {receiver : Option TypeId} {k : Name} {args : List TypeId}
    (hu : ∃ u, W.callAt site.id = some u ∧ u.called = some k ∧
      ∀ site' as, u = .send site' k as → receiver = none)
    (hr : ∀ a ∈ receiver, σ.types.Values W.classes a)
    (ha : ∀ a ∈ args, σ.types.Values W.classes a)
    (hJ : σ.Grows τ → (∀ c ∈ Registry.combinations τ.types
        (W.effective τ.types receiver (S.self.getD .object) k) args, W.Answered τ k c.1 c.2 a) ∧
      Locals.Under τ.types S.locals L') :
    W.CompletesIn σ S (inferCallAt W.ctx visit site receiver k args) (W.Stays τ K a L') := by
  obtain ⟨r, σ', S', hx, hat, hto, -⟩ := inferCallAt_safe h hv.safe h₀ site hu hr ha
  obtain ⟨r', σ'', hx', -, -, hend⟩ := inferCall_stays hv hτ hidle site.span h.ok h₀ hr
    (h.scope.self_values h.ok) ha fun hg => (hJ hg).1
  have hrun := inferCallAt_eq hx'
  cases r' with
  | ok p =>
    cases hx.symm.trans hrun
    exact ⟨_, _, _, hrun, hat, hto, hend.1, fun hg =>
      ⟨hend.2 hg, fun _ => (hJ (hto.below hg)).2⟩⟩
  | error e =>
    cases hx.symm.trans hrun
    exact ⟨_, _, _, hrun, hat, hto, fun hg => ⟨hend hg, fun _ => (hJ (hto.below hg)).2⟩⟩

end

/-- The types of some arguments stay within those of the last pass. -/
def StaysArgs (W : World) (τ : State) (K : Prop) (as : Option (List TypeId)) (L' : Locals) :
    Except TypeError (Option (List TypeId)) → State → Scope → Prop
  | .ok none, σ', S' => σ'.Grows τ → K → Locals.Under τ.types S'.locals L'
  | .ok (some bs), σ', S' => (∀ b ∈ bs, σ'.types.Values W.classes b) ∧ (σ'.Grows τ →
      (∃ as', as = some as' ∧
        List.Forall₂ (fun b a => b ≠ .never ∧ τ.types.Within b a) bs as') ∧
      Locals.Under τ.types S'.locals L')
  | .error e, σ', S' => σ'.Grows τ → e.IsDivergence ∧ (K → Locals.Under τ.types S'.locals L')

/-- What is done with some arguments, if they all have values. -/
theorem withArgs_stays (H : τ.types.WF) {as : Option (List TypeId)}
    {x : InferIn (Option (List TypeId))} {f : List TypeId → InferIn TypeId}
    (hx : W.CompletesIn σ S x (W.StaysArgs τ K₁ as L')) (hK : K → K₁)
    (hf : ∀ bs σ₁ S₁, W.At σ₁ S₁ → W.To σ S σ₁ S₁ → (∀ b ∈ bs, σ₁.types.Values W.classes b) →
      (σ₁.Grows τ → (∃ as', as = some as' ∧
        List.Forall₂ (fun b a => b ≠ .never ∧ τ.types.Within b a) bs as') ∧
        Locals.Under τ.types S₁.locals L') →
      W.CompletesIn σ₁ S₁ (f bs) (W.Stays τ K a L')) :
    W.CompletesIn σ S (do
      match ← x with
      | none => return .never
      | some bs => f bs) (W.Stays τ K a L') := by
  refine hx.bind (fun bs σ₁ S₁ h₁ hto₁ hbs => ?_)
    fun e σ' S' _ _ he hg => ⟨(he hg).1, fun hk => (he hg).2 (hK hk)⟩
  cases bs with
  | none =>
    exact .pure h₁ ⟨.never h₁.ok.types, fun hg => ⟨.never H, fun hk =>
      hbs hg (hK (hk.resolve_left fun h => h rfl))⟩⟩
  | some bs => exact hf bs σ₁ S₁ h₁ hto₁ hbs.1 hbs.2

end World

end Multimethod
