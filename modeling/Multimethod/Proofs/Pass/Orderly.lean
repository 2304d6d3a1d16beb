import Multimethod.Proofs.Machine.Local

/-!
# Where inference goes on without a value

Typing stops at something that has no value, as what follows does not run. In four places it goes
on all the same: after a top-level statement, after the test or the body of a loop, after the
default of a parameter, and after the right operand of `&&` or `||`. Locals that should have been
bound there are then missing for the rest of a pass in which a callee has no return type yet.

Nothing is missing if what stands in such a place only assigns locals that are bound before
(`Term.KeepsTo`). A term is orderly if this is so in all of these places within it
(`Term.orderly`); which locals are bound there for certain is read off the terms that come before
(`Term.certain`).
-/

namespace Multimethod

open Inference TypeTable

/-! ## Terms -/

namespace Term

/-- The local that a term assigns itself. -/
def assigns? : Term → Option Name
  | .assign _ n _ => some n
  | _ => none

/-- The local that a term tests itself, and binds by that. -/
def tests? : Term → Option Name
  | .ifThen _ test _ | .ifElse _ test _ _ => InferIn.tested? test
  | _ => none

/-- What runs depending on a test. -/
def branches : Term → List Term
  | .ifThen _ _ yes => [yes]
  | .ifElse _ _ yes no => [yes, no]
  | _ => []

/-- What a term assigns or tests itself is among `B`, and its branches assign nothing. -/
def Keeps (B : List Name) (t : Term) : Prop :=
  (∀ n ∈ t.assigns?, n ∈ B) ∧ (∀ n ∈ t.tests?, n ∈ B) ∧
    ∀ b ∈ t.branches, b.Every (·.assigns? = none)

instance (B : List Name) : DecidablePred (Keeps B) := fun t =>
  inferInstanceAs (Decidable ((∀ n ∈ t.assigns?, n ∈ B) ∧ (∀ n ∈ t.tests?, n ∈ B) ∧
    ∀ b ∈ t.branches, b.Every (·.assigns? = none)))

/-- Only locals of `B` are assigned or tested, and none is assigned in a branch. -/
def KeepsTo (B : List Name) (t : Term) : Prop := t.Every (Keeps B)

instance (B : List Name) (t : Term) : Decidable (t.KeepsTo B) :=
  inferInstanceAs (Decidable (t.Every _))

mutual

/-- The locals that are bound for certain once the term has a value. -/
def certain : Term → List Name
  | .assign _ n value => n :: value.certain
  | .setIvar _ _ value => value.certain
  | .call _ receiver _ args => receiver.certain ++ certainOf args
  | .send _ _ args | .primitive _ _ args => certainOf args
  | .ifThen _ test _ => test.certain
  | .ifElse _ test yes no => test.certain ++ yes.certain.filter (· ∈ no.certain)
  | .andAlso _ left _ | .orElse _ left _ => left.certain
  | .block _ stmts => certainOf stmts
  | _ => []

/-- The locals that are bound for certain once all of some terms have values. -/
def certainOf : List Term → List Name
  | [] => []
  | t :: ts => t.certain ++ certainOf ts

end

mutual

/-- Wherever inference goes on without a value within the term, only locals are assigned that are
bound there for certain, those of `B` being bound before the term. -/
def orderly (B : List Name) : Term → Bool
  | .assign _ _ value | .setIvar _ _ value | .retValue _ value => value.orderly B
  | .call _ receiver _ args => receiver.orderly B && orderlyOf (receiver.certain ++ B) args
  | .send _ _ args | .primitive _ _ args => orderlyOf B args
  | .ifThen _ test yes => test.orderly B && yes.orderly (test.certain ++ B)
  | .ifElse _ test yes no =>
    test.orderly B && yes.orderly (test.certain ++ B) && no.orderly (test.certain ++ B)
  | .loop _ test body =>
    decide (test.KeepsTo B) && decide (body.KeepsTo B) && test.orderly B && body.orderly B
  | .andAlso _ left right | .orElse _ left right =>
    left.orderly B && decide (right.KeepsTo (left.certain ++ B)) &&
      right.orderly (left.certain ++ B)
  | .block _ stmts => orderlyOf B stmts
  | _ => true

/-- The same for terms that follow each other. -/
def orderlyOf (B : List Name) : List Term → Bool
  | [] => true
  | t :: ts => t.orderly B && orderlyOf (t.certain ++ B) ts

end

mutual

/-- What is bound by a term that keeps to some locals is among these. -/
theorem mem_of_certain {B : List Name} {n : Name} :
    ∀ {t : Term}, t.KeepsTo B → n ∈ t.certain → n ∈ B
  | .assign _ k _, h, hn => by
    simp only [certain, List.mem_cons] at hn
    rcases hn with rfl | hn
    · exact h.1.1 n rfl
    · exact mem_of_certain h.2 hn
  | .setIvar _ _ _, h, hn => by
    simp only [certain] at hn
    exact mem_of_certain h.2 hn
  | .call _ _ _ _, h, hn => by
    simp only [certain, List.mem_append] at hn
    exact hn.elim (mem_of_certain h.2.1) (mem_of_certainOf h.2.2)
  | .send _ _ _, h, hn | .block _ _, h, hn | .primitive _ _ _, h, hn => by
    simp only [certain] at hn
    exact mem_of_certainOf h.2 hn
  | .ifThen _ _ _, h, hn | .andAlso _ _ _, h, hn | .orElse _ _ _, h, hn => by
    simp only [certain] at hn
    exact mem_of_certain h.2.1 hn
  | .ifElse _ _ _ _, h, hn => by
    simp only [certain, List.mem_append, List.mem_filter] at hn
    exact hn.elim (mem_of_certain h.2.1) fun hn => mem_of_certain h.2.2.1 hn.1
  | .nil _, _, hn | .bool _ _, _, hn | .int _ _, _, hn | .float _ _, _, hn | .self _, _, hn
  | .var _ _, _, hn | .ivar _ _, _, hn | .const _ _, _, hn | .loop _ _ _, _, hn | .ret _, _, hn
  | .retValue _ _, _, hn => by
    simp [certain] at hn

theorem mem_of_certainOf {B : List Name} {n : Name} :
    ∀ {ts : List Term}, EveryOf (Keeps B) ts → n ∈ certainOf ts → n ∈ B
  | [], _, hn => by simp [certainOf] at hn
  | _ :: _, h, hn => by
    simp only [certainOf, List.mem_append] at hn
    exact hn.elim (mem_of_certain h.1) (mem_of_certainOf h.2)

end

/-- A term does not assign the local `n` itself, and tests it only if `bound`. -/
def Spares (n : Name) (bound : Prop) (t : Term) : Prop :=
  t.assigns? ≠ some n ∧ (t.tests? = some n → bound)

variable {B C : List Name} {n : Name} {t : Term}

theorem Keeps.spares (h : t.Keeps B) (hn : n ∉ B) : t.Spares n False :=
  ⟨fun ha => hn (h.1 n ha), fun ht => hn (h.2.1 n ht)⟩

theorem Keeps.mono (h : t.Keeps B) (hBC : ∀ n ∈ B, n ∈ C) : t.Keeps C :=
  ⟨fun n hn => hBC n (h.1 n hn), fun n hn => hBC n (h.2.1 n hn), h.2.2⟩

theorem KeepsTo.mono (h : t.KeepsTo B) (hBC : ∀ n ∈ B, n ∈ C) : t.KeepsTo C :=
  Every.imp (fun _ hu => hu.mono hBC) h

theorem keepsTo_mono {ts : List Term} (h : EveryOf (Keeps B) ts) (hBC : ∀ n ∈ B, n ∈ C) :
    EveryOf (Keeps C) ts :=
  EveryOf.imp₂ (fun _ hu _ => hu.mono hBC) h h

theorem KeepsTo.append (h : t.KeepsTo B) : t.KeepsTo (C ++ B) :=
  h.mono fun _ hn => List.mem_append_right C hn

theorem keepsTo_append {ts : List Term} (h : EveryOf (Keeps B) ts) : EveryOf (Keeps (C ++ B)) ts :=
  keepsTo_mono h fun _ hn => List.mem_append_right C hn

/-- A branch that assigns nothing leaves all locals alone but those that it tests. -/
theorem KeepsTo.spares_branch (h : t.KeepsTo B) (ha : t.Every (·.assigns? = none)) (n : Name) :
    t.Every (Spares n (n ∈ B)) :=
  Every.imp₂ (fun _ hu hnone => ⟨by simp [hnone], fun ht => hu.2.1 n ht⟩) h ha

end Term

namespace Inference.Context

/-- The defaults of some parameters and then a body are orderly, each with the parameters before it
bound, and the defaults keep to these. -/
def orderlyFrom (ctx : Context) (body : ExprId) : List Name → List Param → Bool
  | B, [] => (ctx.term body).orderly B
  | B, p :: ps => (p.default.all fun d => decide ((ctx.term d).KeepsTo B) && (ctx.term d).orderly B) &&
      ctx.orderlyFrom body (p.name :: B) ps

/-- All methods and the top level are orderly. -/
def orderly (ctx : Context) : Bool :=
  (ctx.methods.methods.all fun m => ctx.orderlyFrom m.definition.body [] m.definition.params) &&
    Term.orderlyOf [] ctx.main

theorem orderlyFrom_of_orderly {ctx : Context} (h : ctx.orderly = true) {mid : MethodId} {m : Method}
    (hm : ctx.methods.get? mid = some m) :
    ctx.orderlyFrom m.definition.body [] m.definition.params = true := by
  rw [orderly, Bool.and_eq_true, Array.all_eq_true_iff_forall_mem] at h
  exact h.1 m (Array.mem_of_getElem? hm)

end Inference.Context

/-! ## Locals that are left alone -/

namespace Inference

variable {t : TypeTable} {n : Name} {L L₁ L' A B : Locals}

theorem Locals.Grows.bound (h : Locals.Grows t L L') (hn : L[n]? ≠ none) : L'[n]? ≠ none := by
  obtain ⟨a, ha⟩ := Option.ne_none_iff_exists'.1 hn
  obtain ⟨b, hb, -⟩ := h n a ha
  simp [hb]

/-- The local `n` is not bound anew, and its type does not get wider. -/
def Locals.Leaves (t : TypeTable) (n : Name) (L L' : Locals) : Prop :=
  ∀ a, L'[n]? = some a → ∃ b, L[n]? = some b ∧ ∀ m ∈ t.members a, m ∈ t.members b

namespace Locals.Leaves

theorem refl : Leaves t n L L := fun a ha => ⟨a, ha, fun _ hm => hm⟩

theorem trans (h : Leaves t n L L₁) (h' : Leaves t n L₁ L') : Leaves t n L L' := fun a ha => by
  obtain ⟨b, hb, hab⟩ := h' a ha
  obtain ⟨c, hc, hbc⟩ := h b hb
  exact ⟨c, hc, fun m hm => hbc m (hab m hm)⟩

theorem bound (h : Leaves t n L L') (hn : L'[n]? ≠ none) : L[n]? ≠ none := by
  obtain ⟨a, ha⟩ := Option.ne_none_iff_exists'.1 hn
  obtain ⟨b, hb, -⟩ := h a ha
  simp [hb]

/-- Two paths that leave a local alone leave it alone where they meet. -/
theorem joins {ad bd : Bool} (h : Locals.Joins t A ad B bd L') (hA : Leaves t n L A)
    (hB : Leaves t n L B) (hgA : Grows t L A) (hgB : Grows t L B) : Leaves t n L L' := by
  have both (hj : ∀ n : Name, (A[n]? = none ∧ B[n]? = none ∧ L'[n]? = none) ∨
      (A[n]? ≠ none ∨ B[n]? ≠ none) ∧ ∃ c, L'[n]? = some c ∧
        t.Joins (A[n]?.getD (if ad then .never else .nil))
          (B[n]?.getD (if ad then .never else .nil)) c) : Leaves t n L L' := by
    intro a ha
    rcases hj n with ⟨-, -, hno⟩ | ⟨hsome, c, hc, hj⟩
    · simp [hno] at ha
    cases ha.symm.trans hc
    have hL : L[n]? ≠ none := hsome.elim hA.bound hB.bound
    obtain ⟨x, hx⟩ := Option.ne_none_iff_exists'.1 (hgA.bound hL)
    obtain ⟨y, hy⟩ := Option.ne_none_iff_exists'.1 (hgB.bound hL)
    obtain ⟨b, hb, hxb⟩ := hA x hx
    obtain ⟨b', hb', hyb⟩ := hB y hy
    cases hb.symm.trans hb'
    rw [hx, hy] at hj
    exact ⟨b, hb, fun m hm => ((hj.2.2.2 m).1 hm).elim (hxb m) (hyb m)⟩
  cases ad <;> cases bd
  · exact both h
  · exact (show L' = A from h) ▸ hA
  · exact (show L' = B from h) ▸ hB
  · exact both h

/-- A local that was bound is left alone when `nil` is added to others. -/
theorem orNils {bound : Locals} (h : OrNils t bound L L') (hb : L[n]? ≠ none → bound[n]? ≠ none) :
    Leaves t n L L' := by
  intro a ha
  have hn := h n
  cases hL : L[n]? with
  | none => simp [hL, ha] at hn
  | some b =>
    have hc : bound.contains n = true := by
      rw [Std.ExtTreeMap.contains_eq_isSome_getElem?]
      exact Option.isSome_iff_ne_none.2 (hb (by simp [hL]))
    simp only [hL, hc, if_true, ha, Option.some.injEq] at hn
    exact ⟨b, rfl, by simp [hn]⟩

end Locals.Leaves

theorem Rounds.leaves {T R : Locals → TypeId → Locals → Prop} {bound : Option Locals} {P : Prop}
    (hgT : ∀ L a L', T L a L' → Locals.Grows t L L') (hgR : ∀ L a L', R L a L' → Locals.Grows t L L')
    (hT : ∀ L a L', (P → L[n]? ≠ none) → T L a L' → Locals.Leaves t n L L')
    (hR : ∀ L a L', (P → L[n]? ≠ none) → R L a L' → Locals.Leaves t n L L')
    (hP : P → L[n]? ≠ none) (hb : ∀ C ∈ bound, L[n]? ≠ none → C[n]? ≠ none)
    (h : Rounds t T R bound L L') : Locals.Leaves t n L L' := by
  -- What was bound when a round began had been bound before the first test was through.
  have first {bound : Option Locals} {L L₁ : Locals} (hg : Locals.Grows t L L₁)
      (hb : ∀ C ∈ bound, L[n]? ≠ none → C[n]? ≠ none) (hn : L[n]? ≠ none) :
      (bound.getD L₁)[n]? ≠ none := by
    cases bound with
    | none => exact hg.bound hn
    | some C => exact hb C rfl hn
  induction h with
  | stop ht _ _ hor => exact .orNils hor (first (hgT _ _ _ ht) hb)
  | @next bound L a L₁ L₂ L' ht hno hyes _ _ ih =>
    have hg₁ := hgT _ _ _ ht
    have hl₁ := hT _ _ _ hP ht
    obtain ⟨hg₂, hl₂⟩ : Locals.Grows t L₁ L₂ ∧ Locals.Leaves t n L₁ L₂ := by
      by_cases ha : a = .never
      · rw [hno ha]
        exact ⟨.refl, .refl⟩
      · obtain ⟨b, hb⟩ := hyes ha
        exact ⟨hgR _ _ _ hb, hR _ _ _ (fun p => hg₁.bound (hP p)) hb⟩
    have hl := hl₁.trans hl₂
    refine hl.trans (ih (fun p => (hg₁.trans hg₂).bound (hP p)) fun C hC hn => ?_)
    cases hC
    exact first hg₁ hb (hl.bound hn)

end Inference

namespace World

variable {W : World} {τ : State} {U : Scope} {L L' : Locals} {a : TypeId} {n : Name} {P : Prop}

theorem Assigns.leaves {k : Name} (h : Assigns τ k a L L') (hk : k ≠ n) :
    Locals.Leaves τ.types n L L' := by
  rcases h with ⟨-, rfl⟩ | ⟨-, b, -, rfl⟩
  · exact .refl
  · intro c hc
    rw [Map.getElem?_insert_ne (Ne.symm hk)] at hc
    exact ⟨c, hc, fun _ hm => hm⟩

/-- A local that is tested has its earlier types again after the branch. -/
theorem Narrows.leaves {test : Term} {T : Locals → TypeId → Locals → Prop}
    (hg : ∀ L a L', T L a L' → Locals.Grows τ.types L L')
    (hT : ∀ L a L', (P → L[n]? ≠ none) → T L a L' → Locals.Leaves τ.types n L L')
    (hP : P → L[n]? ≠ none) (ht : InferIn.tested? test = some n → P)
    (h : Narrows τ test T L a L') : Locals.Leaves τ.types n L L' := by
  unfold Narrows at h
  split at h
  · exact hT _ _ _ hP h
  · rename_i k hk
    obtain ⟨narrow, L₁, w, hdrop, hb, hj, rfl⟩ := h
    have hl := hT _ _ _ (fun p => ?_) hb
    · intro c hc
      by_cases hkn : k = n
      · subst hkn
        obtain ⟨full, hfull⟩ := Option.ne_none_iff_exists'.1 (hP (ht hk))
        obtain ⟨x, hx, -⟩ := hg _ _ _ hb k narrow (by simp)
        obtain ⟨y, hy, hxy⟩ := hl x hx
        simp only [Std.ExtTreeMap.getElem?_insert_self, Option.some.injEq] at hc hy
        subst hc hy
        rw [hfull, hx] at hj
        rw [hfull] at hdrop
        refine ⟨full, hfull, fun m hm => ((hj.2.2.2 m).1 hm).elim id fun hm => ?_⟩
        exact ((hdrop.2.2 m).1 (hxy m hm)).1
      · have hne := fun h => hkn (Std.compare_eq_iff_eq.1 h)
        rw [Std.ExtTreeMap.getElem?_insert, if_neg hne] at hc
        obtain ⟨d, hd, hcd⟩ := hl c hc
        rw [Std.ExtTreeMap.getElem?_insert, if_neg hne] at hd
        exact ⟨d, hd, hcd⟩
    · rw [Std.ExtTreeMap.getElem?_insert]
      split
      · simp
      · exact hP p

open Term in
mutual

/-- A term leaves alone what it neither assigns nor binds by a test. -/
theorem Typed.leaves {t : Term} {L : Locals} {a : TypeId} {L' : Locals} (hs : t.Every (Spares n P))
    (hP : P → L[n]? ≠ none) (h : W.Typed τ U t L a L') : Locals.Leaves τ.types n L L' := by
  cases t <;> simp only [Typed] at h <;> obtain ⟨-, h⟩ := h
    <;> simp only [Every, Spares, assigns?, tests?, ne_eq, reduceCtorEq, not_false_eq_true,
      false_implies, and_self, true_and, and_true, Option.some.injEq] at hs
  case nil | bool | int | float | self | var => obtain ⟨-, rfl⟩ := h; exact .refl
  case ivar | const => obtain ⟨rfl, -⟩ := h; exact .refl
  case ret => obtain ⟨-, rfl, -⟩ := h; exact .refl
  case assign =>
    obtain ⟨L₁, hv, ha⟩ := h
    exact (hv.leaves hs.2 hP).trans (ha.leaves hs.1)
  case setIvar => exact h.1.leaves hs hP
  case call =>
    obtain ⟨b, L₁, hr, ⟨-, -, rfl⟩ | ⟨-, as, has, -⟩⟩ := h
    · exact hr.leaves hs.1 hP
    · exact (hr.leaves hs.1 hP).trans (has.leaves hs.2 fun p => hr.grows.bound (hP p))
  case send =>
    obtain ⟨as, has, -⟩ := h
    exact has.leaves hs hP
  case ifThen =>
    obtain ⟨b, L₁, ht, ⟨-, -, rfl⟩ | ⟨-, c, L₂, hy, hj, -⟩⟩ := h
    · exact ht.leaves hs.2.1 hP
    · have hP₁ := fun p => ht.grows.bound (hP p)
      exact (ht.leaves hs.2.1 hP).trans (.joins hj
        (hy.leaves (fun _ _ _ h => h.grows) (fun _ _ _ hP h => h.leaves hs.2.2 hP) hP₁ hs.1) .refl
        (hy.grows fun _ _ _ h => h.grows) .refl)
  case ifElse =>
    obtain ⟨b, L₁, ht, ⟨-, -, rfl⟩ | ⟨-, c, L₂, d, L₃, hy, hn, hj, -⟩⟩ := h
    · exact ht.leaves hs.2.1 hP
    · have hP₁ := fun p => ht.grows.bound (hP p)
      exact (ht.leaves hs.2.1 hP).trans (.joins hj
        (hy.leaves (fun _ _ _ h => h.grows) (fun _ _ _ hP h => h.leaves hs.2.2.1 hP) hP₁ hs.1)
        (hn.leaves hs.2.2.2 hP₁) (hy.grows fun _ _ _ h => h.grows) hn.grows)
  case loop =>
    exact h.2.leaves (fun _ _ _ h => h.grows) (fun _ _ _ h => h.grows)
      (fun _ _ _ hP h => h.leaves hs.1 hP) (fun _ _ _ hP h => h.leaves hs.2 hP) hP (by simp)
  case andAlso | orElse =>
    obtain ⟨b, L₁, hl, ⟨-, -, rfl⟩ | ⟨-, c, L₂, hr, hor, -⟩⟩ := h
    · exact hl.leaves hs.1 hP
    · have hright := hr.leaves hs.2 fun p => hl.grows.bound (hP p)
      exact (hl.leaves hs.1 hP).trans (hright.trans (.orNils hor hright.bound))
  case retValue =>
    obtain ⟨-, b, hv, -⟩ := h
    exact hv.leaves hs hP
  case block => exact TypedStmts.leaves hs hP h
  case primitive =>
    obtain ⟨as, has, -⟩ := h
    exact has.leaves hs hP

theorem TypedArgs.leaves {ts : List Term} {L : Locals} {as : Option (List TypeId)} {L' : Locals}
    (hs : EveryOf (Spares n P) ts)
    (hP : P → L[n]? ≠ none) (h : W.TypedArgs τ U ts L as L') : Locals.Leaves τ.types n L L' := by
  cases ts <;> simp only [TypedArgs] at h <;> simp only [EveryOf] at hs
  case nil => obtain ⟨-, rfl⟩ := h; exact .refl
  case cons =>
    obtain ⟨a, L₁, ht, ⟨-, -, rfl⟩ | ⟨-, as₁, has, -⟩⟩ := h
    · exact ht.leaves hs.1 hP
    · exact (ht.leaves hs.1 hP).trans (has.leaves hs.2 fun p => ht.grows.bound (hP p))

theorem TypedStmts.leaves {last : TypeId} {ts : List Term} {L : Locals} {a : TypeId}
    {L' : Locals} (hs : EveryOf (Spares n P) ts)
    (hP : P → L[n]? ≠ none) (h : W.TypedStmts τ U last ts L a L') :
    Locals.Leaves τ.types n L L' := by
  cases ts <;> simp only [TypedStmts] at h <;> simp only [EveryOf] at hs
  case nil => obtain ⟨-, rfl⟩ := h; exact .refl
  case cons =>
    obtain ⟨b, L₁, ht, ⟨-, -, rfl⟩ | ⟨-, h⟩⟩ := h
    · exact ht.leaves hs.1 hP
    · exact (ht.leaves hs.1 hP).trans (h.leaves hs.2 fun p => ht.grows.bound (hP p))

end

section
variable {B : List Name} (hB : ∀ n ∈ B, L[n]? ≠ none)
include hB

/-- What keeps to locals that are bound binds no others. -/
theorem Typed.unbound {t : Term} (hk : t.KeepsTo B) (h : W.Typed τ U t L a L') (hn : L[n]? = none) :
    L'[n]? = none := by
  by_contra hn'
  have hs := Term.Every.imp (fun _ hu => hu.spares fun hnB => hB n hnB hn) hk
  exact (h.leaves hs False.elim).bound hn' hn

theorem TypedArgs.unbound {ts : List Term} {as : Option (List TypeId)}
    (hk : Term.EveryOf (Term.Keeps B) ts) (h : W.TypedArgs τ U ts L as L') (hn : L[n]? = none) :
    L'[n]? = none := by
  by_contra hn'
  have hs := Term.everyOf_iff.2 fun t ht => Term.Every.imp
    (fun _ hu => hu.spares fun hnB => hB n hnB hn) (Term.everyOf_iff.1 hk t ht)
  exact (h.leaves hs False.elim).bound hn' hn

theorem TypedStmts.unbound {last : TypeId} {ts : List Term}
    (hk : Term.EveryOf (Term.Keeps B) ts) (h : W.TypedStmts τ U last ts L a L')
    (hn : L[n]? = none) : L'[n]? = none := by
  by_contra hn'
  have hs := Term.everyOf_iff.2 fun t ht => Term.Every.imp
    (fun _ hu => hu.spares fun hnB => hB n hnB hn) (Term.everyOf_iff.1 hk t ht)
  exact (h.leaves hs False.elim).bound hn' hn

end

/-! ## Locals that are bound for certain -/

theorem Narrows.bound {test : Term} {T : Locals → TypeId → Locals → Prop}
    (h : Narrows τ test T L a L') (hT : ∀ L L', T L a L' → L'[n]? ≠ none) : L'[n]? ≠ none := by
  unfold Narrows at h
  split at h
  · exact hT _ _ h
  · obtain ⟨narrow, L₁, w, -, hb, -, rfl⟩ := h
    rw [Std.ExtTreeMap.getElem?_insert]
    split
    · simp
    · exact hT _ _ hb

/-- A local that is bound wherever a path has a value is bound where the paths meet. -/
theorem joins_bound {t : TypeTable} {A B : Locals} {c d : TypeId}
    (h : Locals.Joins t A (c = .never) B (d = .never) L') (hne : ¬ (c = .never ∧ d = .never))
    (hA : c ≠ .never → A[n]? ≠ none) (hB : d ≠ .never → B[n]? ≠ none) : L'[n]? ≠ none := by
  by_cases hc : c = .never <;> by_cases hd : d = .never
  · exact absurd ⟨hc, hd⟩ hne
  · simp only [hc, hd, decide_true, decide_false] at h
    exact (show L' = B from h) ▸ hB hd
  · simp only [hc, hd, decide_true, decide_false] at h
    exact (show L' = A from h) ▸ hA hc
  · simp only [hc, hd, decide_false] at h
    rcases h n with ⟨hno, -⟩ | ⟨-, e, he, -⟩
    · exact absurd hno (hA hc)
    · simp [he]

open Term in
mutual

/-- Once a term has a value, the locals that it binds for certain are bound. -/
theorem Typed.certain (H : τ.types.WF) {t : Term} {L : Locals} {a : TypeId} {L' : Locals}
    (h : W.Typed τ U t L a L') (ha : a ≠ .never) (hn : n ∈ t.certain) : L'[n]? ≠ none := by
  cases t <;> simp only [Typed] at h <;> obtain ⟨-, h⟩ := h
    <;> simp only [Term.certain, List.not_mem_nil, List.mem_cons, List.mem_append, List.mem_filter,
      decide_eq_true_eq] at hn
  case assign =>
    obtain ⟨L₁, hv, hassign⟩ := h
    rcases hn with rfl | hn
    · rcases hassign with ⟨hnever, -⟩ | ⟨-, b, -, rfl⟩
      · exact absurd hnever ha
      · simp
    · exact hassign.grows.bound (hv.certain H ha hn)
  case setIvar => exact h.1.certain H ha hn
  case call =>
    obtain ⟨b, L₁, hr, ⟨-, hnever, -⟩ | ⟨hb, as, has, hcall⟩⟩ := h
    · exact absurd hnever ha
    rcases hn with hn | hn
    · exact has.grows.bound (hr.certain H hb hn)
    · cases as with
      | none => exact absurd hcall ha
      | some as => exact has.certain H hn
  case send =>
    obtain ⟨as, has, hcall⟩ := h
    cases as with
    | none => exact absurd hcall ha
    | some as => exact has.certain H hn
  case ifThen =>
    obtain ⟨b, L₁, ht, ⟨-, hnever, -⟩ | ⟨hb, c, L₂, hy, hj, -⟩⟩ := h
    · exact absurd hnever ha
    · exact (hj.grows (hy.grows fun _ _ _ h => h.grows) .refl).bound (ht.certain H hb hn)
  case ifElse =>
    obtain ⟨b, L₁, ht, ⟨-, hnever, -⟩ | ⟨hb, c, L₂, d, L₃, hy, hno, hj, hu⟩⟩ := h
    · exact absurd hnever ha
    rcases hn with hn | ⟨hy', hno'⟩
    · exact (hj.grows (hy.grows fun _ _ _ h => h.grows) hno.grows).bound (ht.certain H hb hn)
    · refine joins_bound hj (fun ⟨hc, hd⟩ => ha ?_) (fun hc => hy.bound fun _ _ h =>
        h.certain H hc hy') fun hd => hno.certain H hd hno'
      subst hc hd
      exact (hu.inside (.refl H.has_never) (.refl H.has_never)).eq_never H
  case andAlso | orElse =>
    obtain ⟨b, L₁, hl, ⟨-, hnever, -⟩ | ⟨hb, c, L₂, hr, hor, -⟩⟩ := h
    · exact absurd hnever ha
    · exact (hr.grows.trans hor.grows).bound (hl.certain H hb hn)
  case block => exact TypedStmts.certain H h ha hn
  case primitive =>
    obtain ⟨as, has, happ⟩ := h
    cases as with
    | none => exact absurd happ ha
    | some as => exact has.certain H hn

theorem TypedArgs.certain (H : τ.types.WF) {ts : List Term} {L : Locals} {as : List TypeId}
    {L' : Locals} (h : W.TypedArgs τ U ts L (some as) L') (hn : n ∈ certainOf ts) :
    L'[n]? ≠ none := by
  cases ts <;> simp only [TypedArgs] at h
    <;> simp only [certainOf, List.not_mem_nil, List.mem_append] at hn
  case cons =>
    obtain ⟨a, L₁, ht, ⟨-, hno, -⟩ | ⟨ha, as₁, has, hsome⟩⟩ := h
    · cases hno
    obtain ⟨as₂, rfl, -⟩ := Option.map_eq_some_iff.1 hsome.symm
    rcases hn with hn | hn
    · exact has.grows.bound (ht.certain H ha hn)
    · exact has.certain H hn

theorem TypedStmts.certain (H : τ.types.WF) {last : TypeId} {ts : List Term} {L : Locals}
    {a : TypeId} {L' : Locals} (h : W.TypedStmts τ U last ts L a L') (ha : a ≠ .never)
    (hn : n ∈ certainOf ts) : L'[n]? ≠ none := by
  cases ts <;> simp only [TypedStmts] at h
    <;> simp only [certainOf, List.not_mem_nil, List.mem_append] at hn
  case cons =>
    obtain ⟨b, L₁, ht, ⟨-, hnever, -⟩ | ⟨hb, h⟩⟩ := h
    · exact absurd hnever ha
    rcases hn with hn | hn
    · exact h.grows.bound (ht.certain H hb hn)
    · exact h.certain H ha hn

end

end World

end Multimethod
