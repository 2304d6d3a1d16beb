import Multimethod.Proofs.Inference.Final
import Multimethod.Proofs.Machine.Value

/-!
# Locals along a run

Typing goes through all paths and joins them; a run takes one. The locals of a run fit those that
typing has at the same point (`Fits`), and where typing goes on from wider locals, they fit these
too (`Locals.Reads`): what a path leaves unbound reads as `nil`, and joins count that in. A loop may
be left after any of its rounds (`Rounds.unroll`).
-/

namespace Multimethod

open Inference TypeTable

namespace Inference

variable {t : TypeTable} {L L₁ L₂ L' A B : Locals}

/-- Whatever is bound stays bound, to a type with all the members. -/
def Locals.Grows (t : TypeTable) (L L' : Locals) : Prop :=
  ∀ (n : Name) (a : TypeId), L[n]? = some a → ∃ b, L'[n]? = some b ∧
    ∀ m ∈ t.members a, m ∈ t.members b

/-- Whatever value a local may have, it may have in the other locals. -/
def Locals.Reads (t : TypeTable) (L L' : Locals) : Prop :=
  ∀ (n : Name), ∀ m ∈ t.members (L[n]?.getD .nil), m ∈ t.members (L'[n]?.getD .nil)

namespace Locals

theorem Grows.refl : Grows t L L := fun _ a ha => ⟨a, ha, fun _ hm => hm⟩

theorem Grows.trans (h : Grows t L L₁) (h' : Grows t L₁ L') : Grows t L L' := fun n a ha => by
  obtain ⟨b, hb, hab⟩ := h n a ha
  obtain ⟨c, hc, hbc⟩ := h' n b hb
  exact ⟨c, hc, fun m hm => hbc m (hab m hm)⟩

theorem Reads.refl : Reads t L L := fun _ _ hm => hm

theorem Reads.trans (h : Reads t L L₁) (h' : Reads t L₁ L') : Reads t L L' :=
  fun n m hm => h' n m (h n m hm)

/-- Locals that take in others, and `nil` where these are unbound. -/
theorem Grows.reads (h : Grows t L L')
    (hnil : ∀ (n : Name) b, L[n]? = none → L'[n]? = some b → .nil ∈ t.members b) (H : t.WF) :
    Reads t L L' := fun n m hm => by
  cases hn : L[n]? with
  | some a =>
    obtain ⟨b, hb, hab⟩ := h n a hn
    rw [hn] at hm
    rw [hb]
    exact hab m hm
  | none =>
    rw [hn, Option.getD_none, members_of_isMember (by rw [H.shape_nil]; trivial),
      List.mem_singleton] at hm
    subst hm
    cases hn' : L'[n]? with
    | none => exact mem_members_self (by rw [Option.getD_none, H.shape_nil]; trivial)
    | some b => exact hnil n b hn hn'

theorem OrNils.grows {bound : Locals} (h : OrNils t bound L L') : Grows t L L' := fun n a ha => by
  have hn := h n
  rw [ha] at hn
  dsimp only at hn
  split at hn
  · exact ⟨a, hn, fun _ hm => hm⟩
  · obtain ⟨b, hb, hj⟩ := hn
    exact ⟨b, hb, hj.left.2.2⟩

/-- Where a local is not among the bound ones, it may be `nil`. -/
theorem OrNils.nil_mem {bound : Locals} (h : OrNils t bound L L') (H : t.WF) {n : Name}
    (hb : bound[n]? = none) {b : TypeId} (hn : L'[n]? = some b) : .nil ∈ t.members b := by
  have := h n
  cases ha : L[n]? with
  | none => simp [ha, hn] at this
  | some a =>
    have hc : bound.contains n = false := by
      rw [Std.ExtTreeMap.contains_eq_isSome_getElem?, hb]
      rfl
    simp only [ha, hc, Bool.false_eq_true, if_false] at this
    obtain ⟨c, hc, hj⟩ := this
    cases hn.symm.trans hc
    exact hj.right.2.2 _ (mem_members_self (by rw [H.shape_nil]; trivial))

theorem OrNils.reads {bound : Locals} (h : OrNils t bound L L') (H : t.WF) : Reads t L L' :=
  h.grows.reads (fun n b hn hb => by
    have := h n
    simp [hn, hb] at this) H

/-- After a branch that is taken from the bound locals or not at all. -/
theorem OrNils.reads_skipped (h : OrNils t L L₁ L') (hb : Grows t L L₁) (H : t.WF) :
    Reads t L L' := (hb.trans h.grows).reads (fun _ _ hn hn' => h.nil_mem H hn hn') H

section
variable {ad bd : Bool} (h : Joins t A ad B bd L')
include h

/-- A path that yields a value has its locals taken in by a join. -/
theorem Joins.reads_left (ha : ad = false) : Reads t A L' := by
  subst ha
  cases bd with
  | true => rw [show L' = A from h]; exact .refl
  | false =>
    intro n m hm
    rcases h n with ⟨hA, -, hL⟩ | ⟨-, c, hc, hj⟩
    · rw [hA] at hm
      rwa [hL]
    · rw [hc]
      exact hj.left.2.2 m hm

theorem Joins.reads_right (hb : bd = false) : Reads t B L' := by
  subst hb
  cases ad with
  | true => rw [show L' = B from h]; exact .refl
  | false =>
    intro n m hm
    rcases h n with ⟨-, hB, hL⟩ | ⟨-, c, hc, hj⟩
    · rw [hB] at hm
      rwa [hL]
    · rw [hc]
      exact hj.right.2.2 m hm

/-- What both paths take in, their join takes in. -/
theorem Joins.grows (hA : Grows t L A) (hB : Grows t L B) : Grows t L L' := by
  have both (hj : ∀ n : Name, (A[n]? = none ∧ B[n]? = none ∧ L'[n]? = none) ∨
      (A[n]? ≠ none ∨ B[n]? ≠ none) ∧ ∃ c, L'[n]? = some c ∧
        t.Joins (A[n]?.getD (if ad then .never else .nil))
          (B[n]?.getD (if ad then .never else .nil)) c) : Grows t L L' := by
    intro n a ha
    obtain ⟨a', ha', haa⟩ := hA n a ha
    rcases hj n with ⟨hno, -⟩ | ⟨-, c, hc, hj⟩
    · simp [hno] at ha'
    · rw [ha'] at hj
      exact ⟨c, hc, fun m hm => hj.left.2.2 m (haa m hm)⟩
  cases ad <;> cases bd
  · exact both h
  · rw [show L' = A from h]; exact hA
  · rw [show L' = B from h]; exact hB
  · exact both h

end

end Locals

theorem Rounds.grows {T R : Locals → TypeId → Locals → Prop} {bound : Option Locals}
    (hT : ∀ L a L', T L a L' → Locals.Grows t L L')
    (hR : ∀ L a L', R L a L' → Locals.Grows t L L') (h : Rounds t T R bound L L') :
    Locals.Grows t L L' := by
  induction h with
  | stop _ _ _ hor => exact hor.grows
  | next ht hno hyes _ _ ih =>
    rename_i a _ _ _ _ _
    refine .trans ?_ ih
    by_cases ha : a = .never
    · rw [hno ha]
      exact hT _ _ _ ht
    · obtain ⟨b, hb⟩ := hyes ha
      exact (hT _ _ _ ht).trans (hR _ _ _ hb)

end Inference

/-! ## Locals only get wider -/

namespace World

variable {W : World} {τ : State} {U : Scope} {L L' : Locals} {a : TypeId}

theorem Assigns.grows {n : Name} (h : Assigns τ n a L L') : Locals.Grows τ.types L L' := by
  rcases h with ⟨-, rfl⟩ | ⟨-, b, hj, rfl⟩
  · exact .refl
  · intro k c hk
    rw [Std.ExtTreeMap.getElem?_insert]
    split
    · rename_i hn
      rw [Std.compare_eq_iff_eq.1 hn, hk] at hj
      exact ⟨b, rfl, hj.left.2.2⟩
    · exact ⟨c, hk, fun _ hm => hm⟩

theorem Narrows.grows {test : Term} {T : Locals → TypeId → Locals → Prop}
    (hT : ∀ L a L', T L a L' → Locals.Grows τ.types L L') (h : Narrows τ test T L a L') :
    Locals.Grows τ.types L L' := by
  unfold Narrows at h
  split at h
  · exact hT _ _ _ h
  · obtain ⟨narrow, L₁, w, -, hb, hj, rfl⟩ := h
    intro k c hk
    rw [Std.ExtTreeMap.getElem?_insert]
    split
    · rename_i hn
      rw [Std.compare_eq_iff_eq.1 hn, hk] at hj
      exact ⟨w, rfl, hj.left.2.2⟩
    · refine hT _ _ _ hb k c ?_
      rwa [Std.ExtTreeMap.getElem?_insert, if_neg ‹_›]

mutual

theorem Typed.grows {t : Term} {L : Locals} {a : TypeId} {L' : Locals}
    (h : W.Typed τ U t L a L') : Locals.Grows τ.types L L' := by
  cases t <;> simp only [Typed] at h <;> obtain ⟨-, h⟩ := h
  case nil | bool | int | float | self | var => obtain ⟨-, rfl⟩ := h; exact .refl
  case ivar | const => obtain ⟨rfl, -⟩ := h; exact .refl
  case ret => obtain ⟨-, rfl, -⟩ := h; exact .refl
  case assign =>
    obtain ⟨L₁, hv, ha⟩ := h
    exact hv.grows.trans ha.grows
  case setIvar => exact h.1.grows
  case call =>
    obtain ⟨b, L₁, hr, ⟨-, -, rfl⟩ | ⟨-, as, has, -⟩⟩ := h
    · exact hr.grows
    · exact hr.grows.trans has.grows
  case send =>
    obtain ⟨as, has, -⟩ := h
    exact has.grows
  case ifThen =>
    obtain ⟨b, L₁, ht, ⟨-, -, rfl⟩ | ⟨-, c, L₂, hy, hj, -⟩⟩ := h
    · exact ht.grows
    · exact hj.grows (ht.grows.trans (hy.grows fun _ _ _ h => h.grows)) ht.grows
  case ifElse =>
    obtain ⟨b, L₁, ht, ⟨-, -, rfl⟩ | ⟨-, c, L₂, d, L₃, hy, hn, hj, -⟩⟩ := h
    · exact ht.grows
    · exact hj.grows (ht.grows.trans (hy.grows fun _ _ _ h => h.grows)) (ht.grows.trans hn.grows)
  case loop => exact h.2.grows (fun _ _ _ h => h.grows) fun _ _ _ h => h.grows
  case andAlso | orElse =>
    obtain ⟨b, L₁, hl, ⟨-, -, rfl⟩ | ⟨-, c, L₂, hr, hor, -⟩⟩ := h
    · exact hl.grows
    · exact hl.grows.trans (hr.grows.trans hor.grows)
  case retValue =>
    obtain ⟨-, b, hv, -⟩ := h
    exact hv.grows
  case block => exact TypedStmts.grows h
  case primitive =>
    obtain ⟨as, has, -⟩ := h
    exact has.grows

theorem TypedArgs.grows {ts : List Term} {L : Locals} {as : Option (List TypeId)} {L' : Locals}
    (h : W.TypedArgs τ U ts L as L') : Locals.Grows τ.types L L' := by
  cases ts <;> simp only [TypedArgs] at h
  case nil => obtain ⟨-, rfl⟩ := h; exact .refl
  case cons =>
    obtain ⟨a, L₁, ht, ⟨-, -, rfl⟩ | ⟨-, as₁, has, -⟩⟩ := h
    · exact ht.grows
    · exact ht.grows.trans has.grows

theorem TypedStmts.grows {last : TypeId} {ts : List Term} {L : Locals} {a : TypeId}
    {L' : Locals} (h : W.TypedStmts τ U last ts L a L') : Locals.Grows τ.types L L' := by
  cases ts <;> simp only [TypedStmts] at h
  case nil => obtain ⟨-, rfl⟩ := h; exact .refl
  case cons =>
    obtain ⟨b, L₁, ht, ⟨-, -, rfl⟩ | ⟨-, h⟩⟩ := h
    · exact ht.grows
    · exact ht.grows.trans h.grows

end

/-- There is one type for each argument. -/
theorem TypedArgs.length_eq {ts : List Term} {L : Locals} {as : List TypeId} {L' : Locals}
    (h : W.TypedArgs τ U ts L (some as) L') : as.length = ts.length := by
  induction ts generalizing L as with
  | nil =>
    cases h.1
    rfl
  | cons t ts ih =>
    obtain ⟨a, L₁, -, ⟨-, hno, -⟩ | ⟨-, as₁, has, hsome⟩⟩ := h
    · cases hno
    · obtain ⟨as₂, rfl, rfl⟩ := Option.map_eq_some_iff.1 hsome.symm
      rw [List.length_cons, List.length_cons, ih has]

/-- If arguments do not change the locals, what their types have in common is theirs one by one. -/
theorem TypedArgs.all {Q : TypeId → Prop} {ts : List Term} {L : Locals} {as : List TypeId}
    {L' : Locals} (h : W.TypedArgs τ U ts L (some as) L')
    (hts : ∀ t ∈ ts, ∀ a L', W.Typed τ U t L a L' → L' = L ∧ Q a) : ∀ a ∈ as, Q a := by
  induction ts generalizing as with
  | nil =>
    cases h.1
    simp
  | cons t ts ih =>
    obtain ⟨a, L₁, ht, ⟨-, hno, -⟩ | ⟨-, as₁, has, hsome⟩⟩ := h
    · cases hno
    · obtain ⟨as₂, rfl, rfl⟩ := Option.map_eq_some_iff.1 hsome.symm
      obtain ⟨rfl, ha⟩ := hts t (.head _) a L₁ ht
      exact List.forall_mem_cons.2 ⟨ha, ih has fun u hu => hts u (.tail _ hu)⟩

/-- Binding some parameters, and then some more. -/
theorem binds_append {m : Method} {key : SpecKey} {i : Nat} {ps qs : List Param} {S S' : Scope} :
    W.Binds τ U m key i (ps ++ qs) S S' ↔
      ∃ S₁, W.Binds τ U m key i ps S S₁ ∧ W.Binds τ U m key (i + ps.length) qs S₁ S' := by
  induction ps generalizing i S with
  | nil => exact ⟨fun h => ⟨S, rfl, h⟩, by rintro ⟨_, rfl, h⟩; exact h⟩
  | cons p ps ih =>
    have hi : i + (p :: ps).length = i + 1 + ps.length := by
      rw [List.length_cons, Nat.add_comm ps.length, Nat.add_assoc]
    rw [hi]
    constructor
    · rintro ⟨a, S₂, hp, hagain, hps⟩
      obtain ⟨S₁, hps, hqs⟩ := ih.1 hps
      exact ⟨S₁, ⟨a, S₂, hp, hagain, hps⟩, hqs⟩
    · rintro ⟨S₁, ⟨a, S₂, hp, hagain, hps⟩, hqs⟩
      exact ⟨a, S₂, hp, hagain, ih.2 ⟨S₁, hps, hqs⟩⟩

/-! ## Loops -/

/-- The rounds of a loop from the locals `L` to `L'`: all that the test bound when it ran first is
bound. -/
def Loops (W : World) (τ : State) (U : Scope) (test body : Term) (L L' : Locals) : Prop :=
  ∃ bound, (∀ B ∈ bound, ∀ n : Name, L[n]? = none → B[n]? = none) ∧
    Rounds τ.types (W.Typed τ U test) (W.Typed τ U body) bound L L'

/-- A loop may be left whenever its test has run, and else goes on with its body, and then as it
began. -/
theorem Loops.unroll (H : τ.types.WF) {test body : Term} (h : W.Loops τ U test body L L') :
    ∃ a L₁, W.Typed τ U test L a L₁ ∧ (a ≠ .never → Locals.Reads τ.types L₁ L' ∧
      ∃ b L₂, W.Typed τ U body L₁ b L₂ ∧ W.Loops τ U test body L₂ L') := by
  -- A local that the test left unbound may be `nil` in the end.
  have unbound {bound : Option Locals} {L L' : Locals} (h : Rounds τ.types (W.Typed τ U test)
      (W.Typed τ U body) bound L L') : ∀ B, bound = some B → ∀ (n : Name) b, B[n]? = none →
        L'[n]? = some b → .nil ∈ τ.types.members b := by
    induction h with
    | stop _ _ _ hor =>
      rintro B rfl n b hB hb
      exact hor.nil_mem H hB hb
    | next _ _ _ _ _ ih =>
      rintro B rfl n b hB hb
      exact ih B rfl n b hB hb
  have grows {bound : Option Locals} {L L' : Locals} (h : Rounds τ.types (W.Typed τ U test)
      (W.Typed τ U body) bound L L') : Locals.Grows τ.types L L' :=
    h.grows (fun _ _ _ h => h.grows) fun _ _ _ h => h.grows
  -- What is unbound at some point was so before.
  have before {L L₁ : Locals} (h : Locals.Grows τ.types L L₁) {n : Name} (hn : L₁[n]? = none) :
      L[n]? = none := by
    cases ha : L[n]? with
    | none => rfl
    | some a =>
      obtain ⟨b, hb, -⟩ := h n a ha
      cases hn.symm.trans hb
  obtain ⟨bound, hbound, hr⟩ := h
  have first {L₁ : Locals} (ht : Locals.Grows τ.types L L₁) :
      ∀ n : Name, L₁[n]? = none → (bound.getD L₁)[n]? = none := fun n hn => by
    cases bound with
    | none => exact hn
    | some B => exact hbound B rfl n (before ht hn)
  cases hr with
  | @stop _ _ a L₁ _ ht hno hyes hor =>
    refine ⟨a, L₁, ht, fun ha => ?_⟩
    obtain ⟨b, hb⟩ := hyes ha
    refine ⟨(hb.grows.trans hor.grows).reads (fun n c hn hc => hor.nil_mem H
      (first ht.grows n hn) hc) H, b, L, hb, bound, hbound, .stop ht hno hyes hor⟩
  | @next _ _ a L₁ L₂ _ ht hno hyes hne hrest =>
    refine ⟨a, L₁, ht, fun ha => ?_⟩
    obtain ⟨b, hb⟩ := hyes ha
    refine ⟨(hb.grows.trans (grows hrest)).reads (fun n c hn hc => unbound hrest _ rfl n c
      (first ht.grows n hn) hc) H, b, L₂, hb, _, ?_, hrest⟩
    rintro B ⟨⟩ n hn
    exact first ht.grows n (before hb.grows hn)

end World

/-! ## The locals of a run -/

section
variable {t : TypeTable} {P : ClassId → Prop} {cs cs' : List ClassId} {ℓ : Map .name Value}
  {L L' : Locals} {n : Name} {v : Value} {a b : TypeId}

/-- Every local has a value of its type; one that is unbound reads as `nil`. -/
def Fits (t : TypeTable) (P : ClassId → Prop) (cs : List ClassId) (ℓ : Map .name Value)
    (L : Locals) : Prop :=
  ∀ n : Name, (ℓ[n]?.getD .nil).Of t P cs (L[n]?.getD .nil)

namespace Fits

theorem empty (H : t.WF) : Fits t P cs ∅ ∅ := fun n => by
  simpa using .nil H

theorem mono (h : Fits t P cs ℓ L) (hcs : cs <+: cs') : Fits t P cs' ℓ L :=
  fun n => (h n).mono hcs

theorem reads (h : Fits t P cs ℓ L) (hr : Locals.Reads t L L') : Fits t P cs ℓ L' :=
  fun n => (h n).of_members (hr n)

theorem getD_insert (n k : Name) (v : Value) :
    ((ℓ.insert n v)[k]?).getD .nil = if n = k then v else ℓ[k]?.getD .nil := by
  rw [Std.ExtTreeMap.getElem?_insert]
  by_cases hn : n = k
  · rw [if_pos (Std.compare_eq_iff_eq.2 hn), if_pos hn]
    rfl
  · rw [if_neg fun h => hn (Std.compare_eq_iff_eq.1 h), if_neg hn]

/-- Assigning a value to a local whose type takes it in. -/
theorem insert (h : Fits t P cs ℓ L) (hv : v.Of t P cs a) :
    Fits t P cs (ℓ.insert n v) (L.insert n a) := fun k => by
  rw [getD_insert, Std.ExtTreeMap.getElem?_insert]
  by_cases hn : n = k
  · rw [if_pos hn, if_pos (Std.compare_eq_iff_eq.2 hn)]
    exact hv
  · rw [if_neg hn, if_neg fun h => hn (Std.compare_eq_iff_eq.1 h)]
    exact h k

/-- Taking the type of a local for one that the value is of too. -/
theorem retype (h : Fits t P cs ℓ L) (hv : (ℓ[n]?.getD .nil).Of t P cs a) :
    Fits t P cs ℓ (L.insert n a) := fun k => by
  rw [Std.ExtTreeMap.getElem?_insert]
  split
  · rename_i hn
    rw [← Std.compare_eq_iff_eq.1 hn]
    exact hv
  · exact h k

/-- Widening a local by what is assigned to it. -/
theorem assign {τ : State} (h : Fits τ.types P cs ℓ L) (H : τ.types.WF)
    (ha : World.Assigns τ n a L L') (hv : v.Of τ.types P cs a) :
    Fits τ.types P cs (ℓ.insert n v) L' := by
  rcases ha with ⟨rfl, -⟩ | ⟨-, b, hj, rfl⟩
  · exact absurd rfl (hv.ne_never H)
  · exact h.insert (hv.inside hj.right)

end Fits

end

end Multimethod
