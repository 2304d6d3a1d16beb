import Multimethod.Proofs.Evolution.State

/-!
# Locals only get wider

Along every path, where paths meet, in a branch that has narrowed a local and after what may have
been left out, each local that was bound at first is bound still, and its type has all the members
it had.
-/

namespace Multimethod

open Inference TypeTable

namespace Inference

/-- A type was found, and the locals are as wide as `L` or wider. -/
structure Finds (L : Locals) (a : TypeId) (q : State × Scope) : Prop where
  has : q.1.types.Has a
  locals : Locals.Inside q.1.types L q.2.locals

end Inference

namespace InferIn

variable {ctx : Context} {L A B : Locals} {p : State × Scope}

/-! ## Where paths meet -/

/-- Each of some names gets a type that takes in the one that it has among `A`. -/
theorem unions_course (hA : Locals.Described p.1.types A) (hB : Locals.Described p.1.types B)
    {d : TypeId} (hd : p.1.types.Has d) (ns : List Name) (h : Fine ctx p) {m : Locals}
    (hm : Locals.Described p.1.types m) (hn : ∀ n a, A[n]? = some a → n ∉ ns →
      ∃ c, m[n]? = some c ∧ p.1.types.Inside a c) :
    Course (EvolvesIn ctx) p
      (ns.foldlM (fun m n => do
        let t ← InferIn.union (A[n]?.getD d) (B[n]?.getD d)
        return m.insert n t) m)
      fun L q => q.2 = p.2 ∧ Locals.Described q.1.types L ∧ Locals.Inside q.1.types A L := by
  -- By induction on the names that are left: all others are wide enough already.
  induction ns generalizing p m with
  | nil =>
    rw [List.foldlM_nil]
    exact .pure (.refl h) ⟨rfl, hm, fun n a ha => hn n a ha List.not_mem_nil⟩
  | cons n ns ih =>
    simp only [List.foldlM_cons, bind_assoc, pure_bind]
    refine (Course.unionIn h (hA.getD hd n) (hB.getD hd n)).bind fun c q hq hc => ?_
    obtain ⟨hj, hS⟩ := hc
    have hm' := (hm.mono hq.types).insert (n := n) hj.right.2.1
    refine (ih (hA.mono hq.types) (hB.mono hq.types) (hd.mono hq.types) hq.fine hm' ?_).mono ?_
    · intro k a ha hk
      by_cases hkn : k = n
      · subst hkn
        rw [ha] at hj
        exact ⟨c, by simp, hj.left⟩
      · obtain ⟨b, hb, hab⟩ := hn k a ha fun h => (List.mem_cons.1 h).elim hkn hk
        exact ⟨b, by rw [Map.getElem?_insert_ne hkn, hb], hab.mono hq.types⟩
    · intro L q' _ hL
      exact ⟨hL.1.trans hS, hL.2⟩

/-- Whatever path is taken, where it meets another the locals are as wide as on both. -/
theorem joinLocals_course (h : Fine ctx p) (hA : Locals.Described p.1.types A)
    (hB : Locals.Described p.1.types B) (aDead bDead : Bool) :
    Course (EvolvesIn ctx) p (InferIn.joinLocals A aDead B bDead) fun C q => q.2 = p.2 ∧
      Locals.Described q.1.types C ∧ ∀ L, Locals.Inside p.1.types L A →
        Locals.Inside p.1.types L B → Locals.Inside q.1.types L C := by
  have both {d : TypeId} (hd : p.1.types.Has d) : Course (EvolvesIn ctx) p
      ((Handle.sorted (A.keys ++ B.keys)).foldlM (fun m n => do
        let t ← InferIn.union (A[n]?.getD d) (B[n]?.getD d)
        return m.insert n t) ∅) fun (C : Locals) q => q.2 = p.2 ∧
      Locals.Described q.1.types C ∧ ∀ L, Locals.Inside p.1.types L A →
        Locals.Inside p.1.types L B → Locals.Inside q.1.types L C := by
    refine (unions_course hA hB hd _ h (m := ∅) (fun n a ha => by simp at ha) ?_).mono ?_
    · intro n a ha hn
      refine absurd (Handle.mem_sorted.2 (List.mem_append_left _ ?_)) hn
      rw [Std.ExtTreeMap.mem_keys, Std.ExtTreeMap.mem_iff_isSome_getElem?, ha]
      rfl
    · intro C q hq hC
      exact ⟨hC.1, hC.2.1, fun L hLA _ => (hLA.mono hq.types).trans hC.2.2⟩
  unfold InferIn.joinLocals
  cases aDead <;> cases bDead
  · exact both h.state.types.has_nil
  · exact .pure (.refl h) ⟨rfl, hA, fun L hLA _ => hLA⟩
  · exact .pure (.refl h) ⟨rfl, hB, fun L _ hLB => hLB⟩
  · exact both h.state.types.has_never

/-- Typing the second branch from the locals `entry`, and joining it with a first one. -/
theorem joining_course (h : Fine ctx p) {entry : Locals} {first : TypeId} {other : InferIn TypeId}
    (hentry : Locals.Described p.1.types entry)
    (hin : Locals.Inside p.1.types entry p.2.locals) (hfirst : p.1.types.Has first)
    (hother : ∀ q, Fine ctx q → Course (EvolvesIn ctx) q other (Finds q.2.locals)) :
    Course (EvolvesIn ctx) p (InferIn.joining entry first other) (Finds entry) := by
  unfold InferIn.joining
  refine .locals ((Course.setLocals h hentry).bind fun _ p₁ h₁ hp₁ => ?_)
  subst hp₁
  refine (hother _ h₁.fine).bind fun second p₂ h₂ hs => ?_
  have hle := h₂.types
  have hfirst₂ := h.scope.locals.mono hle
  refine .locals ((joinLocals_course h₂.fine hfirst₂ h₂.fine.scope.locals _ _).bind
    fun C p₃ h₃ hC => ?_)
  obtain ⟨-, hC, hjoin⟩ := hC
  refine (Course.setLocals h₃.fine hC).bind fun _ p₄ h₄ hp₄ => ?_
  subst hp₄
  have hle₃ := h₃.types
  refine (Course.unionIn h₄.fine ((hfirst.mono hle).mono hle₃) (hs.has.mono hle₃)).mono
    fun a q hq ha => ?_
  obtain ⟨hj, hS⟩ := ha
  refine ⟨hj.left.2.1, ?_⟩
  rw [hS]
  exact (hjoin entry (hin.mono hle) hs.locals).mono hq.types

/-! ## What may be left out -/

/-- Adding `nil` to the types of some locals. -/
theorem orNils_course {bound : Locals} (l : List (Name × TypeId)) (h : Fine ctx p) {m : Locals}
    (hL : Locals.Described p.1.types L) (hl : ∀ c ∈ l, L[c.1]? = some c.2)
    (hm : Locals.Described p.1.types m) (hin : Locals.Inside p.1.types L m) :
    Course (EvolvesIn ctx) p
      (l.foldlM (fun (m : Locals) (n, a) => do
        if bound.contains n then return m
        else return m.insert n (← InferIn.onTypes (TypeTable.orNil a))) m)
      fun C q => q.2 = p.2 ∧ Locals.Described q.1.types C ∧ Locals.Inside q.1.types L C := by
  induction l generalizing p m with
  | nil =>
    rw [List.foldlM_nil]
    exact .pure (.refl h) ⟨rfl, hm, hin⟩
  | cons c l ih =>
    obtain ⟨n, a⟩ := c
    have ha : L[n]? = some a := hl _ (.head _)
    have hl' := fun c hc => hl c (List.Mem.tail _ hc)
    simp only [List.foldlM_cons]
    by_cases hb : bound.contains n = true
    · simp only [hb, if_true, pure_bind]
      exact ih h hL hl' hm hin
    · simp only [hb, Bool.false_eq_true, if_false, bind_assoc, pure_bind]
      refine (Course.onTypesIn h (orNil_joins h.state.types (hL n a ha))).bind fun b q hq hc => ?_
      obtain ⟨hj, hS⟩ := hc
      refine (ih hq.fine (hL.mono hq.types) hl' ((hm.mono hq.types).insert hj.left.2.1) ?_).mono ?_
      · refine Locals.inside_insert (fun k c _ hk => hin.mono hq.types k c hk) fun c hc => ?_
        cases ha.symm.trans hc
        exact hj.left
      · intro C q' _ hC
        exact ⟨hC.1.trans hS, hC.2⟩

theorem orNilExcept_course (h : Fine ctx p) (bound : Locals) :
    Course (EvolvesIn ctx) p (InferIn.orNilExcept bound) fun _ q =>
      Locals.Inside q.1.types p.2.locals q.2.locals := by
  unfold InferIn.orNilExcept
  refine .locals ((orNils_course _ h h.scope.locals (fun c hc => ?_) h.scope.locals
    h.scope.locals.refl).bind fun C q hq hC => ?_)
  · exact Std.ExtTreeMap.mem_toList_iff_getElem?_eq_some.1 hc
  · refine (Course.setLocals hq.fine hC.2.1).mono fun _ q' _ hq' => ?_
    subst hq'
    exact hC.2.2

/-! ## Conditions -/

/-- Typing a branch with what the condition says about a local: after it, that has its earlier type
again, and more. -/
theorem narrowing_course (h : Fine ctx p) (test : Term) {branch : InferIn TypeId}
    (hbranch : ∀ q, Fine ctx q → Course (EvolvesIn ctx) q branch (Finds q.2.locals)) :
    Course (EvolvesIn ctx) p (InferIn.narrowing test branch) (Finds p.2.locals) := by
  unfold InferIn.narrowing
  cases InferIn.tested? test with
  | none => exact hbranch p h
  | some n =>
    refine .local? ?_
    have hfull := h.scope.locals.getD h.state.types.has_nil n
    refine (Course.onTypesIn h (dropNil_settles h.state.types hfull)).bind
      fun narrow p₁ h₁ hnarrow => ?_
    obtain ⟨⟨hnarrow, -⟩, hS₁⟩ := hnarrow
    refine (Course.setLocal h₁.fine hnarrow).bind fun _ p₂ h₂ hp₂ => ?_
    subst hp₂
    -- Even if the branch fails, the local gets its earlier types back.
    refine (hbranch _ h₂.fine).attempt.bind fun r p₃ h₃ hr => .local? ?_
    have hle₃ := h₃.types
    have hafter := h₃.fine.scope.locals.getD (hnarrow.mono hle₃) n
    refine (Course.unionIn h₃.fine ((hfull.mono h₁.types).mono hle₃) hafter).bind
      fun w p₄ h₄ hw => ?_
    obtain ⟨hj, hS₄⟩ := hw
    refine (Course.setLocal h₄.fine hj.left.2.1).bind fun _ p₅ h₅ hp₅ => ?_
    subst hp₅
    refine .ended (.refl h₅.fine) fun a ha => ?_
    obtain ⟨hhas, hin⟩ := hr a ha
    refine ⟨hhas.mono h₄.types, Locals.inside_insert (fun m b hm hb => ?_) fun b hb => ?_⟩
    · rw [hS₄]
      refine hin.mono h₄.types m b ?_
      rw [Map.getElem?_insert_ne hm, hS₁]
      exact hb
    · rw [hb] at hj
      exact hj.left

end InferIn

end Multimethod
