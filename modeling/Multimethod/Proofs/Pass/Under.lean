import Multimethod.Proofs.Pass.Orderly

/-!
# Locals of an earlier pass

In an earlier pass callees may have smaller types, so locals do too, and what the last pass binds
may still be unbound. As an unbound local reads as `nil`, this does no harm only if the last pass
counts in `nil` there (`Locals.Under`). Assigning, narrowing and adding `nil` keep this, and so does
the end of a branch, whether or not the branch had a value in the earlier pass.
-/

namespace Multimethod.Inference

open TypeTable

variable {t : TypeTable} {L L₁ L' A B X Y Z : Locals} {n : Name} {a b c : TypeId}

/-- The locals `L` are within `L'`: what is bound is bound there, to a type at least as wide, and
what is not bound may be `nil` there. -/
structure Locals.Under (t : TypeTable) (L L' : Locals) : Prop where
  grows : Locals.Grows t L L'
  nil : ∀ (n : Name) b, L[n]? = none → L'[n]? = some b → .nil ∈ t.members b

namespace Locals.Under

theorem empty : Under t ∅ ∅ := ⟨.refl, fun n b _ hb => by simp at hb⟩

/-- A local as it is read. -/
theorem getD (h : Under t L L') (H : t.WF) (n : Name) :
    ∀ m ∈ t.members (L[n]?.getD .nil), m ∈ t.members (L'[n]?.getD .nil) :=
  h.grows.reads h.nil H n

/-- A local as it is widened. -/
theorem getD_never (h : Under t L L') (H : t.WF) (n : Name) :
    ∀ m ∈ t.members (L[n]?.getD .never), m ∈ t.members (L'[n]?.getD .never) := fun m hm => by
  cases hn : L[n]? with
  | none => simp [hn, H.members_never] at hm
  | some a =>
    obtain ⟨b, hb, hab⟩ := h.grows n a hn
    rw [hn] at hm
    rw [hb]
    exact hab m hm

/-- A local as it is read where an unbound one counts as `a`. -/
theorem getD_of_some (h : Under t L L') (hb : L'[n]? = some b)
    (hab : ∀ m ∈ t.members a, m ∈ t.members b) :
    ∀ m ∈ t.members (L[n]?.getD a), m ∈ t.members b := fun m hm => by
  cases hn : L[n]? with
  | none => exact hab m (by simpa [hn] using hm)
  | some c =>
    obtain ⟨d, hd, hcd⟩ := h.grows n c hn
    cases hb.symm.trans hd
    exact hcd m (by simpa [hn] using hm)

theorem insert (h : Under t L L') (hab : ∀ m ∈ t.members a, m ∈ t.members b) :
    Under t (L.insert n a) (L'.insert n b) where
  grows k c hk := by
    rw [Std.ExtTreeMap.getElem?_insert] at hk ⊢
    split at hk
    · rename_i hc
      cases hk
      exact ⟨b, by rw [if_pos hc], hab⟩
    · rename_i hc
      rw [if_neg hc]
      exact h.grows k c hk
  nil k c hk hc := by
    rw [Std.ExtTreeMap.getElem?_insert] at hk hc
    split at hk
    · cases hk
    · rename_i hne
      rw [if_neg hne] at hc
      exact h.nil k c hk hc

/-- Locals that get wider without new ones being bound. -/
theorem widen (h : Under t X L) (hg : Grows t L L') (hb : ∀ n : Name, L[n]? = none → L'[n]? = none) :
    Under t X L' where
  grows := h.grows.trans hg
  nil n c hn hc := by
    cases hL : L[n]? with
    | none => simp [hb n hL] at hc
    | some a =>
      obtain ⟨d, hd, had⟩ := hg n a hL
      cases hc.symm.trans hd
      exact had _ (h.nil n a hn hL)

/-- Two paths that are both within the same locals are so where they meet. -/
theorem joins (H : t.WF) {ad bd : Bool} (hX : Under t X L) (hY : Under t Y L)
    (h : Locals.Joins t X ad Y bd Z) : Under t Z L := by
  have both {d : TypeId} (hd : d = .nil ∨ d = .never) (hj : ∀ n : Name,
      (X[n]? = none ∧ Y[n]? = none ∧ Z[n]? = none) ∨ (X[n]? ≠ none ∨ Y[n]? ≠ none) ∧
        ∃ c, Z[n]? = some c ∧ t.Joins (X[n]?.getD d) (Y[n]?.getD d) c) : Under t Z L := by
    -- What a path leaves unbound may be `nil`.
    have part {X : Locals} (hX : Under t X L) {n : Name} {b : TypeId} (hb : L[n]? = some b) :
        ∀ m ∈ t.members (X[n]?.getD d), m ∈ t.members b := by
      have hread := hX.getD H n
      have hnever := hX.getD_never H n
      rw [hb] at hread hnever
      rcases hd with rfl | rfl
      · exact hread
      · exact hnever
    refine ⟨fun n z hz => ?_, fun n b hn hb => ?_⟩
    · rcases hj n with ⟨-, -, hno⟩ | ⟨hsome, c, hc, hj⟩
      · simp [hno] at hz
      cases hz.symm.trans hc
      obtain ⟨b, hb⟩ := Option.ne_none_iff_exists'.1 (hsome.elim hX.grows.bound hY.grows.bound)
      exact ⟨b, hb, fun m hm => ((hj.2.2.2 m).1 hm).elim (part hX hb m) (part hY hb m)⟩
    · rcases hj n with ⟨hno, -⟩ | ⟨-, c, hc, -⟩
      · exact hX.nil n b hno hb
      · simp [hn] at hc
  cases ad <;> cases bd
  · exact both (.inl rfl) h
  · exact (show Z = X from h) ▸ hX
  · exact (show Z = Y from h) ▸ hY
  · exact both (.inr rfl) h

/-- The same if only what has a value is known to be within `L`, unless the condition `K` holds. -/
theorem meets (H : t.WF) {K : Prop} {ad bd : Bool} (h : Locals.Joins t X ad Y bd Z)
    (hX : ad = false ∨ K → Under t X L) (hY : bd = false ∨ K → Under t Y L)
    (hK : ad = false ∨ bd = false ∨ K) : Under t Z L := by
  cases ad with
  | false =>
    cases bd with
    | false => exact .joins H (hX (.inl rfl)) (hY (.inl rfl)) h
    | true => exact (show Z = X from h) ▸ hX (.inl rfl)
  | true =>
    cases bd with
    | false => exact (show Z = Y from h) ▸ hY (.inl rfl)
    | true =>
      have hk : K := by simpa using hK
      exact .joins H (hX (.inr hk)) (hY (.inr hk)) h

/-- A path that has a value in the last pass leads on to where it meets the other. -/
theorem left (H : t.WF) {bd : Bool} (hX : Under t X A) (h : Locals.Joins t A false B bd L') :
    Under t X L' := by
  cases bd with
  | true => exact (show L' = A from h) ▸ hX
  | false =>
    refine ⟨fun n x hx => ?_, fun n c hn hc => ?_⟩
    · obtain ⟨a, ha, hxa⟩ := hX.grows n x hx
      rcases h n with ⟨hno, -⟩ | ⟨-, c, hc, hj⟩
      · simp [hno] at ha
      · rw [ha] at hj
        exact ⟨c, hc, fun m hm => hj.left.2.2 m (hxa m hm)⟩
    · rcases h n with ⟨-, -, hno⟩ | ⟨-, d, hd, hj⟩
      · simp [hno] at hc
      cases hc.symm.trans hd
      refine hj.left.2.2 _ ?_
      cases ha : A[n]? with
      | none => exact mem_members_self (by simp [H.shape_nil, Shape.IsMember])
      | some a => exact hX.nil n a hn ha

theorem right (H : t.WF) {ad : Bool} (hY : Under t Y B) (h : Locals.Joins t A ad B false L') :
    Under t Y L' := by
  cases ad with
  | true => exact (show L' = B from h) ▸ hY
  | false =>
    refine hY.left H (show Locals.Joins t B false A false L' from fun n => ?_)
    rcases h n with ⟨hA, hB, hL⟩ | ⟨hsome, c, hc, hj⟩
    · exact .inl ⟨hB, hA, hL⟩
    · exact .inr ⟨hsome.symm, c, hc, hj.2.1, hj.1, hj.2.2.1, fun m => (hj.2.2.2 m).trans or_comm⟩

/-- Adding `nil` to locals that may be `nil` in the last pass. -/
theorem orNils (H : t.WF) {bound : Locals} (hX : Under t X L) (h : Locals.OrNils t bound X Z)
    (hb : ∀ (n : Name) b, bound[n]? = none → L[n]? = some b → .nil ∈ t.members b) :
    Under t Z L where
  grows n z hz := by
    have hn := h n
    cases hx : X[n]? with
    | none => simp [hx, hz] at hn
    | some x =>
      obtain ⟨b, hL, hxb⟩ := hX.grows n x hx
      refine ⟨b, hL, ?_⟩
      rw [hx] at hn
      dsimp only at hn
      split at hn
      · cases hz.symm.trans hn
        exact hxb
      · rename_i hc
        obtain ⟨y, hy, hj⟩ := hn
        cases hz.symm.trans hy
        have hnone : bound[n]? = none := by
          rw [Std.ExtTreeMap.contains_eq_isSome_getElem?] at hc
          simpa using hc
        refine fun m hm => ((hj.2.2.2 m).1 hm).elim (hxb m) fun hm => ?_
        rw [members_of_isMember (by rw [H.shape_nil]; trivial), List.mem_singleton] at hm
        exact hm ▸ hb n b hnone hL
  nil n b hz hL := by
    refine hX.nil n b ?_ hL
    cases hx : X[n]? with
    | none => rfl
    | some x =>
      obtain ⟨y, hy, -⟩ := h.grows n x hx
      cases hz.symm.trans hy

end Locals.Under

end Multimethod.Inference
