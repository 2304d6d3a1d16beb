import Multimethod.Proofs.Inference.Safe

/-!
# Locals along paths are safe

Joining paths, narrowing by a condition and adding `nil` do to locals what the judgement says, and
locals only get wider along a path.
-/

namespace Multimethod

open Inference TypeTable

/-- Giving a local a type that takes in its earlier one, where all others have got wider. -/
theorem Inference.Locals.inside_insert {t : TypeTable} {L L' : Locals} {n : Name} {a : TypeId}
    (h : ∀ m b, m ≠ n → L[m]? = some b → ∃ c, L'[m]? = some c ∧ t.Inside b c)
    (ha : ∀ b, L[n]? = some b → t.Inside b a) : Locals.Inside t L (L'.insert n a) := by
  intro m b hb
  by_cases hm : m = n
  · subst hm
    exact ⟨a, Std.ExtTreeMap.getElem?_insert_self, ha b hb⟩
  · rw [Map.getElem?_insert_ne hm]
    exact h m b hm hb

namespace Inference

variable {t u : TypeTable} {L L₁ L' A B : Locals}

theorem Locals.Inside.trans (h : Locals.Inside t L L₁) (h' : Locals.Inside t L₁ L') :
    Locals.Inside t L L' := fun n a ha => by
  obtain ⟨b, hb, hab⟩ := h n a ha
  obtain ⟨c, hc, hbc⟩ := h' n b hb
  exact ⟨c, hc, hab.trans hbc⟩

theorem Locals.Inside.mono (h : Locals.Inside t L L') (hle : t ≤ u) : Locals.Inside u L L' :=
  fun n a ha => by
    obtain ⟨b, hb, hab⟩ := h n a ha
    exact ⟨b, hb, hab.mono hle⟩

theorem DropsNil.mono {a b : TypeId} (h : DropsNil t a b) (hle : t ≤ u) : DropsNil u a b := by
  obtain ⟨ha, hb, hm⟩ := h
  refine ⟨ha.mono hle, hb.mono hle, ?_⟩
  rw [ha.members_eq hle, hb.members_eq hle]
  exact hm

theorem Locals.Joins.mono {aDead bDead : Bool} (h : Locals.Joins t A aDead B bDead L)
    (hle : t ≤ u) : Locals.Joins u A aDead B bDead L := by
  have both (h : ∀ n : Name, (A[n]? = none ∧ B[n]? = none ∧ L[n]? = none) ∨
      (A[n]? ≠ none ∨ B[n]? ≠ none) ∧ ∃ c, L[n]? = some c ∧
        t.Joins (A[n]?.getD (if aDead then .never else .nil))
          (B[n]?.getD (if aDead then .never else .nil)) c) (n : Name) :
      (A[n]? = none ∧ B[n]? = none ∧ L[n]? = none) ∨
      (A[n]? ≠ none ∨ B[n]? ≠ none) ∧ ∃ c, L[n]? = some c ∧
        u.Joins (A[n]?.getD (if aDead then .never else .nil))
          (B[n]?.getD (if aDead then .never else .nil)) c :=
    (h n).imp_right fun ⟨hn, c, hc, hj⟩ => ⟨hn, c, hc, hj.mono hle⟩
  cases aDead <;> cases bDead <;> first | exact h | exact both h

theorem Locals.OrNils.mono (h : Locals.OrNils t A L L') (hle : t ≤ u) :
    Locals.OrNils u A L L' := by
  intro n
  have hn := h n
  cases hL : L[n]? with
  | none => simpa only [hL] using hn
  | some a =>
    simp only [hL] at hn ⊢
    split at hn
    · rename_i hb
      rw [if_pos hb]
      exact hn
    · rename_i hb
      rw [if_neg hb]
      obtain ⟨b, hb, hj⟩ := hn
      exact ⟨b, hb, hj.mono hle⟩

/-- Adding `nil` widens locals. -/
theorem Locals.OrNils.inside (h : Locals.OrNils t A L L')
    (hL : ∀ (n : Name) a, L[n]? = some a → t.Has a) : Locals.Inside t L L' := fun n a ha => by
  have hn := h n
  simp only [ha] at hn
  split at hn
  · exact ⟨a, hn, .refl (hL n a ha)⟩
  · obtain ⟨b, hb, hj⟩ := hn
    exact ⟨b, hb, hj.left⟩

end Inference

namespace World

variable {W : World} {σ₀ σ σ₁ σ' τ : State} {S S₁ S' U : Scope}

/-- What typing something in a body yields: a type of values, wider locals, and the judgement `T` in
every state in sight. -/
def Yields (W : World) (T : State → Scope → Locals → TypeId → Locals → Prop) (S : Scope)
    (a : TypeId) (σ' : State) (S' : Scope) : Prop :=
  σ'.types.Values W.classes a ∧ Locals.Inside σ'.types S.locals S'.locals ∧
    ∀ τ U, Sees σ' S' τ U → T τ U S.locals a S'.locals

/-- Handing on how a computation ended. -/
theorem SafeIn.attempt {α β : Type} {x y : InferIn α} {f g : Except TypeError α → InferIn β}
    {P : α → State → Scope → Prop} {Q : β → State → Scope → Prop} (h : W.SafeIn σ S x y P)
    (hok : ∀ a σ₁ S₁, W.At σ₁ S₁ → W.To σ S σ₁ S₁ → P a σ₁ S₁ →
      W.SafeIn σ₁ S₁ (f (.ok a)) (g (.ok a)) Q)
    (herr : ∀ e σ₁ S₁, W.At σ₁ S₁ → W.To σ S σ₁ S₁ → W.Excused e →
      W.SafeIn σ₁ S₁ (f (.error e)) (g (.error e)) fun _ _ _ => False) :
    W.SafeIn σ S (InferIn.attempt x >>= f) (InferIn.attempt y >>= g) Q := by
  have run {x : InferIn α} {f : Except TypeError α → InferIn β} {σ σ₁ : State} {S S₁ : Scope} {r}
      (hx : x (σ, S) = some (r, σ₁, S₁)) : (InferIn.attempt x >>= f) (σ, S) = f r (σ₁, S₁) := by
    have : InferIn.attempt x (σ, S) = some (.ok r, σ₁, S₁) := by
      show (x (σ, S) >>= fun p => (some (Except.ok p.1, p.2) : Option _)) = _
      rw [hx]; rfl
    show (InferIn.attempt x (σ, S) >>= fun p =>
      (ExceptT.bindCont f p.1 : ScopeRun (Except TypeError β)) p.2) = _
    rw [this]; rfl
  obtain ⟨r, σ₁, S₁, hx, hat, hto, hr⟩ := h
  cases r with
  | error e =>
    obtain ⟨r', σ', S', hf, hat', hto', hr'⟩ := herr e σ₁ S₁ hat hto hr
    refine ⟨r', σ', S', (run hx).trans hf, hat', hto.trans hto', ?_⟩
    cases r' with
    | error e => exact hr'
    | ok b => exact hr'.1.elim
  | ok a =>
    obtain ⟨r', σ', S', hf, hat', hto', hr'⟩ := hok a σ₁ S₁ hat hto hr.1
    refine ⟨r', σ', S', (run hx).trans hf, hat', hto.trans hto', ?_⟩
    cases r' with
    | error e => exact hr'
    | ok b =>
      exact ⟨hr'.1, fun hc => hr'.2.1 (hr.2.1 hc), fun τ U hs hrec =>
        (run (hr.2.2 τ U (hto'.sees hs) hrec)).trans (hr'.2.2 τ U hs hrec)⟩

section
variable (h : W.At σ S)
include h

/-- Taking the union of two locals for each of some names. -/
theorem unions_safe {A B : Locals} (hA : W.LocalsOk σ A) (hB : W.LocalsOk σ B) {d : TypeId}
    (hd : σ.types.Values W.classes d) (ns : List Name) {m : Locals} (hm : W.LocalsOk σ m)
    (hns : ∀ n ∈ ns, n ∈ W.names) :
    W.SafeIn σ S
      (ns.foldlM (fun m n => do
        let t ← InferIn.union (A[n]?.getD d) (B[n]?.getD d)
        return m.insert n t) m)
      (ns.foldlM (fun m n => do
        let t ← InferIn.union (A[n]?.getD d) (B[n]?.getD d)
        return m.insert n t) m)
      fun L σ' S' => S' = S ∧ W.LocalsOk σ' L ∧
        (∀ n ∈ ns, ∃ c, L[n]? = some c ∧ σ'.types.Joins (A[n]?.getD d) (B[n]?.getD d) c) ∧
        ∀ n, n ∉ ns → L[n]? = m[n]? := by
  induction ns generalizing σ m with
  | nil =>
    rw [List.foldlM_nil]
    exact .pure h ⟨rfl, hm, by simp, fun _ _ => rfl⟩
  | cons n ns ih =>
    simp only [List.foldlM_cons, bind_assoc, pure_bind]
    refine (SafeIn.union h (hA.getD_values n hd) (hB.getD_values n hd)).bind
      fun c σ₁ S₁ h₁ hto ⟨hj, hc, hS⟩ => ?_
    subst hS
    have he := hto.extend
    have hn := hns n (.head _)
    refine (ih h₁ (hA.extend h.ok he) (hB.extend h.ok he) (hd.mono h.ok.types he.types)
      ((hm.extend h.ok he).insert hn hc) fun k hk => hns k (.tail _ hk)).mono ?_
    rintro L σ' S' h' hto' ⟨hS, hL, hin, hout⟩
    refine ⟨hS, hL, fun k hk => ?_, fun k hk => ?_⟩
    · by_cases hkn : k ∈ ns
      · exact hin k hkn
      · rcases List.mem_cons.1 hk with rfl | hk
        · exact ⟨c, (hout k hkn).trans (by simp), hj.mono hto'.extend.types⟩
        · exact absurd hk hkn
    · rw [List.mem_cons, not_or] at hk
      rw [hout k hk.2, Map.getElem?_insert_ne hk.1]

/-- Where two paths meet. -/
theorem joinLocals_safe {A B : Locals} (hA : W.LocalsOk σ A) (hB : W.LocalsOk σ B)
    (aDead bDead : Bool) :
    W.SafeIn σ S (InferIn.joinLocals A aDead B bDead) (InferIn.joinLocals A aDead B bDead)
      fun L σ' S' => S' = S ∧ W.LocalsOk σ' L ∧
        Locals.Joins σ'.types A aDead B bDead L := by
  have mem (n : Name) : n ∈ Handle.sorted (A.keys ++ B.keys) ↔
      A[n]? ≠ none ∨ B[n]? ≠ none := by
    simp only [Handle.mem_sorted, List.mem_append, Std.ExtTreeMap.mem_keys,
      Std.ExtTreeMap.mem_iff_isSome_getElem?, Option.isSome_iff_ne_none]
  have both (d : TypeId) (hd : σ.types.Values W.classes d) : W.SafeIn σ S
      ((Handle.sorted (A.keys ++ B.keys)).foldlM (fun m n => do
        let t ← InferIn.union (A[n]?.getD d) (B[n]?.getD d)
        return m.insert n t) ∅)
      ((Handle.sorted (A.keys ++ B.keys)).foldlM (fun m n => do
        let t ← InferIn.union (A[n]?.getD d) (B[n]?.getD d)
        return m.insert n t) ∅)
      fun (L : Locals) σ' S' => S' = S ∧ W.LocalsOk σ' L ∧
        ∀ n : Name, (A[n]? = none ∧ B[n]? = none ∧ L[n]? = none) ∨
          (A[n]? ≠ none ∨ B[n]? ≠ none) ∧ ∃ c, L[n]? = some c ∧
            σ'.types.Joins (A[n]?.getD d) (B[n]?.getD d) c := by
    refine (unions_safe h hA hB hd _ (m := ∅) (fun n a ha => by simp at ha)
      fun n hn => ?_).mono ?_
    · rcases (mem n).1 hn with hn | hn
      · obtain ⟨a, ha⟩ := Option.ne_none_iff_exists'.1 hn
        exact (hA n a ha).1
      · obtain ⟨a, ha⟩ := Option.ne_none_iff_exists'.1 hn
        exact (hB n a ha).1
    · rintro L σ' S' - - ⟨hS, hL, hin, hout⟩
      refine ⟨hS, hL, fun n => ?_⟩
      by_cases hn : n ∈ Handle.sorted (A.keys ++ B.keys)
      · exact .inr ⟨(mem n).1 hn, hin n hn⟩
      · have hn' : A[n]? = none ∧ B[n]? = none := by
          simpa only [mem, not_or, ne_eq, not_not] using hn
        exact .inl ⟨hn'.1, hn'.2, (hout n hn).trans (by simp)⟩
  unfold InferIn.joinLocals
  cases aDead <;> cases bDead
  · exact both _ (Values.nil h.ok.types W.five_le)
  · exact .pure h ⟨rfl, hA, rfl⟩
  · exact .pure h ⟨rfl, hB, rfl⟩
  · exact both _ (Values.never h.ok.types)

/-- Adding `nil` to some locals that are not bound. -/
theorem orNils_safe {bound : Locals} (l : List (Name × TypeId)) {m : Locals}
    (hm : W.LocalsOk σ m) (hl : ∀ p ∈ l, p.1 ∈ W.names ∧ σ.types.Values W.classes p.2) :
    W.SafeIn σ S
      (l.foldlM (fun (m : Locals) (n, a) => do
        if bound.contains n then return m
        else return m.insert n (← InferIn.onTypes (TypeTable.orNil a))) m)
      (l.foldlM (fun (m : Locals) (n, a) => do
        if bound.contains n then return m
        else return m.insert n (← InferIn.onTypes (TypeTable.orNil a))) m)
      fun L σ' S' => S' = S ∧ W.LocalsOk σ' L ∧ ∀ n : Name,
        (L[n]? = m[n]? ∧ ∀ a, (n, a) ∈ l → bound.contains n = true) ∨
        bound.contains n = false ∧ ∃ a b, (n, a) ∈ l ∧ L[n]? = some b ∧
          σ'.types.Joins a .nil b := by
  induction l generalizing σ m with
  | nil =>
    rw [List.foldlM_nil]
    exact .pure h ⟨rfl, hm, fun n => .inl ⟨rfl, by simp⟩⟩
  | cons p l ih =>
    obtain ⟨n, a⟩ := p
    obtain ⟨hn, ha⟩ := hl _ (.head _)
    simp only [List.foldlM_cons]
    by_cases hb : bound.contains n = true
    · simp only [hb, if_true, pure_bind]
      refine (ih h hm fun p hp => hl p (.tail _ hp)).mono ?_
      rintro L σ' S' - - ⟨hS, hL, hcase⟩
      refine ⟨hS, hL, fun k => ?_⟩
      rcases hcase k with ⟨hk, hk'⟩ | ⟨hk, c, b, hc, hb'⟩
      · refine .inl ⟨hk, fun c hc => ?_⟩
        rcases List.mem_cons.1 hc with hc | hc
        · cases hc
          exact hb
        · exact hk' c hc
      · exact .inr ⟨hk, c, b, .tail _ hc, hb'⟩
    · simp only [hb, Bool.false_eq_true, if_false, bind_assoc, pure_bind]
      refine (SafeIn.onTypes h (orNil_joins h.ok.types ha.1)).bind
        fun b σ₁ S₁ h₁ hto ⟨hj, hS⟩ => ?_
      subst hS
      have he := hto.extend
      have hbv := Values.of_joins hj (ha.mono h.ok.types he.types)
        (Values.nil h₁.ok.types W.five_le)
      refine (ih h₁ ((hm.extend h.ok he).insert hn hbv) fun p hp =>
        ⟨(hl p (.tail _ hp)).1, (hl p (.tail _ hp)).2.mono h.ok.types he.types⟩).mono ?_
      rintro L σ' S' - hto' ⟨hS, hL, hcase⟩
      refine ⟨hS, hL, fun k => ?_⟩
      rcases hcase k with ⟨hk, hk'⟩ | ⟨hk, c, b, hc, hb'⟩
      · by_cases hkn : k = n
        · subst hkn
          exact .inr ⟨Bool.eq_false_iff.2 hb, a, b, .head _, by simpa using hk,
            hj.mono hto'.extend.types⟩
        · rw [Map.getElem?_insert_ne hkn] at hk
          refine .inl ⟨hk, fun c hc => ?_⟩
          rcases List.mem_cons.1 hc with hc | hc
          · cases hc
            exact absurd rfl hkn
          · exact hk' c hc
      · exact .inr ⟨hk, c, b, .tail _ hc, hb'⟩

theorem orNilExcept_safe (bound : Locals) :
    W.SafeIn σ S (InferIn.orNilExcept bound) (InferIn.orNilExcept bound) fun _ σ' S' =>
      Locals.OrNils σ'.types bound S.locals S'.locals := by
  have mem (n : Name) (a : TypeId) : (n, a) ∈ S.locals.toList ↔ S.locals[n]? = some a :=
    Std.ExtTreeMap.mem_toList_iff_getElem?_eq_some
  unfold InferIn.orNilExcept
  refine SafeIn.locals ((orNils_safe h S.locals.toList h.scope.locals
    fun p hp => h.scope.locals p.1 p.2 ((mem _ _).1 hp)).bind fun L σ₁ S₁ h₁ _ ⟨hS, hL, hcase⟩ => ?_)
  subst hS
  refine (SafeIn.setLocals h₁ hL).mono ?_
  rintro - σ' S' - - ⟨rfl, rfl⟩ n
  rcases hcase n with ⟨hn, hb⟩ | ⟨hb, a, b, ha, hn, hj⟩
  · cases hs : S₁.locals[n]? with
    | none => simpa [hs] using hn
    | some a => simpa [hs, hb a ((mem n a).2 hs)] using hn
  · have := (mem n a).1 ha
    simp only [this, hb, Bool.false_eq_true, if_false]
    exact ⟨b, hn, hj⟩

/-- Typing a branch with what the condition says about a local. -/
theorem narrowing_safe {test : Term} {branch branch' : InferIn TypeId}
    {T : State → Scope → Locals → TypeId → Locals → Prop}
    (hn : ∀ n ∈ InferIn.tested? test, n ∈ W.names)
    (hb : ∀ σ₁ S₁, W.At σ₁ S₁ → W.To σ S σ₁ S₁ →
      W.SafeIn σ₁ S₁ branch branch' (W.Yields T S₁)) :
    W.SafeIn σ S (InferIn.narrowing test branch) (InferIn.narrowing test branch')
      (W.Yields (fun τ U => Narrows τ test (T τ U)) S) := by
  unfold InferIn.narrowing
  cases ht : InferIn.tested? test with
  | none =>
    refine (hb σ S h (.refl h)).mono fun a σ' S' _ _ ha => ⟨ha.1, ha.2.1, fun τ U hs => ?_⟩
    simp only [Narrows, ht]
    exact ha.2.2 τ U hs
  | some n =>
    have hnm := hn n ht
    refine SafeIn.local? ?_
    set full := S.locals[n]?.getD .nil with hfull
    have hfv : σ.types.Values W.classes full := h.scope.local_values h.ok n
    refine (SafeIn.onTypes h (dropNil_settles h.ok.types hfv.1)).bind
      fun narrow σ₁ S₁ h₁ hto₁ ⟨hnar, hS⟩ => ?_
    subst hS
    have hfv₁ := hfv.mono h.ok.types hto₁.extend.types
    have hdrop : DropsNil σ₁.types full narrow := ⟨hfv₁.1, hnar.1, hnar.2⟩
    have hnv : σ₁.types.Values W.classes narrow :=
      Values.of_inside ⟨hnar.1, hfv₁.1, fun m hm => ((hnar.2 m).1 hm).1⟩ hfv₁
    refine (SafeIn.setLocal h₁ hnm hnv).bind fun _ σ₂ S₂ h₂ hto₂ ⟨hσ₂, hS₂⟩ => ?_
    subst hσ₂
    have finish {r : Except TypeError TypeId} {P : TypeId → State → Scope → Prop} {σ₃ : State}
        {S₃ : Scope} (h₃ : W.At σ₃ S₃) (hto₃ : W.To σ₂ S₂ σ₃ S₃)
        (hend : ∀ σ' S' w, W.At σ' S' → W.To σ₃ S₃ σ' S' →
          σ'.types.Joins full (S₃.locals[n]?.getD narrow) w →
          S' = { S₃ with locals := S₃.locals.insert n w } →
          W.SafeIn σ' S' (InferIn.ended r) (InferIn.ended r) P) :
        W.SafeIn σ₃ S₃ (do
            let after := (← InferIn.local? n).getD narrow
            InferIn.setLocal n (← InferIn.union full after)
            InferIn.ended r) (do
            let after := (← InferIn.local? n).getD narrow
            InferIn.setLocal n (← InferIn.union full after)
            InferIn.ended r) P := by
      have he₃ := hto₃.extend
      refine SafeIn.local? ((SafeIn.union h₃ (hfv₁.mono h₂.ok.types he₃.types)
        (h₃.scope.locals.getD_values n (hnv.mono h₂.ok.types he₃.types))).bind
        fun w σ₄ S₄ h₄ hto₄ ⟨hw, hwv, hS₄⟩ => ?_)
      subst hS₄
      refine (SafeIn.setLocal h₄ hnm hwv).bind fun _ σ₅ S₅ h₅ hto₅ ⟨hσ₅, hS₅⟩ => ?_
      subst hσ₅
      exact hend _ _ w h₅ (hto₄.trans hto₅) hw hS₅
    refine SafeIn.attempt (hb σ₂ S₂ h₂ (hto₁.trans hto₂)) (fun a σ₃ S₃ h₃ hto₃ ha => ?_)
      fun e σ₃ S₃ h₃ hto₃ he => ?_
    · refine finish h₃ hto₃ fun σ' S' w h' hto' hw hS' => .pure h' ?_
      have hle := hto'.extend.types
      have hle' := le_trans hto₃.extend.types hle
      refine ⟨ha.1.mono h₃.ok.types hle, ?_, fun τ U hs => ?_⟩
      · rw [hS']
        refine Locals.inside_insert (fun k b hkn hk => ?_) fun b hb => ?_
        · obtain ⟨c, hc, hbc⟩ := ha.2.1 k b (by rw [hS₂, Map.getElem?_insert_ne hkn, hk])
          exact ⟨c, hc, hbc.mono hle⟩
        · rw [hfull, hb] at hw
          exact hw.left
      · simp only [Narrows, ht]
        have hl := hs.later.types
        refine ⟨narrow, S₃.locals, w, hdrop.mono (le_trans hle' hl), ?_, hw.mono hl, by rw [hS']⟩
        have := ha.2.2 τ U (hto'.sees hs)
        rwa [hS₂] at this
    · exact finish h₃ hto₃ fun σ' S' w h' _ _ _ => .throw h' he

end

/-- Typing the second branch from the locals `entry`, and joining it with a first one. -/
theorem joining_safe (h : W.At σ S) {entry : Locals} {first : TypeId}
    {other other' : InferIn TypeId} {T : State → Scope → Locals → TypeId → Locals → Prop}
    (hentry : W.LocalsOk σ entry) (hin : Locals.Inside σ.types entry S.locals)
    (hfirst : σ.types.Values W.classes first)
    (ho : ∀ σ₁ S₁, W.At σ₁ S₁ → W.To σ S σ₁ S₁ → S₁.locals = entry →
      W.SafeIn σ₁ S₁ other other' (W.Yields T S₁)) :
    W.SafeIn σ S (InferIn.joining entry first other) (InferIn.joining entry first other')
      fun a σ' S' => σ'.types.Values W.classes a ∧ Locals.Inside σ'.types entry S'.locals ∧
        ∀ τ U, Sees σ' S' τ U → ∃ d L, T τ U entry d L ∧
          Locals.Joins τ.types S.locals (first = .never) L (d = .never) S'.locals ∧
          τ.types.Joins first d a := by
  unfold InferIn.joining
  refine SafeIn.locals ((SafeIn.setLocals h hentry).bind fun _ σ₁ S₁ h₁ hto₁ ⟨hσ₁, hS₁⟩ => ?_)
  subst hσ₁
  refine (ho σ₁ S₁ h₁ hto₁ (by rw [hS₁])).bind fun d σ₂ S₂ h₂ hto₂ ⟨hd, hin₂, hT⟩ => ?_
  have he₂ := hto₂.extend
  have hentry₁ : S₁.locals = entry := by rw [hS₁]
  rw [hentry₁] at hin₂ hT
  refine SafeIn.locals ((joinLocals_safe h₂ (h.scope.locals.extend h.ok he₂) h₂.scope.locals
    (first = .never) (d = .never)).bind fun L σ₃ S₃ h₃ hto₃ ⟨hS₃, hL, hj⟩ => ?_)
  subst hS₃
  refine (SafeIn.setLocals h₃ hL).bind fun _ σ₄ S₄ h₄ hto₄ ⟨hσ₄, hS₄⟩ => ?_
  subst hσ₄
  refine (SafeIn.union h₄ ((hfirst.mono h.ok.types he₂.types).mono h₂.ok.types hto₃.extend.types)
    (hd.mono h₂.ok.types hto₃.extend.types)).mono fun a σ' S' h' hto' ⟨ha, hav, hS'⟩ => ?_
  subst hS'
  have hL' : S'.locals = L := by rw [hS₄]
  have hle := le_trans hto₃.extend.types hto'.extend.types
  have hj' := hj.mono hto'.extend.types
  refine ⟨hav, ?_, fun τ U hs => ⟨d, S₃.locals, hT τ U ((hto₃.trans (hto₄.trans hto')).sees hs), ?_,
    ha.mono hs.later.types⟩⟩
  · -- Whatever path is taken, it has the locals at the entry.
    rw [hL']
    have h₁in := (hin.mono he₂.types).mono hle
    have h₂in := hin₂.mono hle
    intro n b hn
    obtain ⟨c₁, hc₁, hb₁⟩ := h₁in n b hn
    obtain ⟨c₂, hc₂, hb₂⟩ := h₂in n b hn
    unfold Locals.Joins at hj'
    split at hj'
    · rw [hj']; exact ⟨c₁, hc₁, hb₁⟩
    · rw [hj']; exact ⟨c₂, hc₂, hb₂⟩
    · rcases hj' n with ⟨hA, -⟩ | ⟨-, c, hc, hjc⟩
      · simp [hA] at hc₁
      · rw [hc₁] at hjc
        exact ⟨c, hc, hb₁.trans hjc.left⟩
  · rw [hL']
    exact hj'.mono hs.later.types

end World

end Multimethod
