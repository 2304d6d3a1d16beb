import Multimethod.Proofs.Registration

/-!
# What a pass changes

Passes end with the first that leaves `State.changed` unset, so that flag must tell exactly whether
something was found. From whatever state the top level is typed, and whether or not its statements
fail, the state only grows, no evaluation stays under way, and the flag is set just if a
specialization was created or a return type or an instance variable gained a member
(`inferTop_changes`).
-/

namespace Multimethod

open Inference TypeTable

namespace Inference

/-- Something is known in the second state that is not known in the first. -/
inductive State.Gains (σ σ' : State) : Prop
  | specialization {s : SpecId} {j : Specialization} (hs : σ.specs.get? s = none)
      (hj : σ'.specs.get? s = some j)
  | returnType {s : SpecId} {i : Specialization} {m : TypeId} (hs : σ.specs.get? s = some i)
      (hm : m ∈ σ'.types.members (σ'.returnType s)) (hn : m ∉ σ.types.members (σ.returnType s))
  | ivar {c : ClassId} {n : Name} {m : TypeId} (hm : m ∈ σ'.types.members (σ'.ivarType c n))
      (hn : m ∉ σ.types.members (σ.ivarType c n))

/-- The states that inference may be in between two typings of the top level, before anything is
frozen, and the number of passes begun. They start from `σ₀`, where nothing is known yet. -/
inductive Underway (ctx : Context) (σ₀ : State) : Nat → State → Prop
  | start : Underway ctx σ₀ 0 σ₀
  | pass {n : Nat} {σ : State} (h : Underway ctx σ₀ n σ) :
      Underway ctx σ₀ (n + 1) (World.passing σ n)
  | typed {n : Nat} {σ σ' : State} {top : TopResult} (h : Underway ctx σ₀ (n + 1) σ)
      (hx : inferTop ctx σ = some (top, σ')) : Underway ctx σ₀ (n + 1) σ'

/-- Passes lead from such states to such states. -/
theorem Underway.runPasses {ctx : Context} {σ₀ σ' : State} {r' : Passes} (left : Nat) :
    ∀ {r : Passes} {σ : State}, Underway ctx σ₀ r.count σ →
      Inference.runPasses ctx left r σ = some (r', σ') → Underway ctx σ₀ r'.count σ' := by
  induction left with
  | zero =>
    intro r σ h hrun
    cases hrun
    exact h
  | succ left ih =>
    intro r σ h hrun
    obtain ⟨⟨r₁, σ₁⟩, hpass, hrun⟩ := Option.bind_eq_some_iff.1 hrun
    obtain ⟨⟨top, σ₂⟩, htop, hpass⟩ := Option.bind_eq_some_iff.1 hpass
    cases hpass
    have h₁ : Underway ctx σ₀ (r.count + 1) σ₁ := .typed (.pass h) htop
    dsimp only at hrun
    split at hrun
    · cases hrun
      exact h₁
    · exact ih h₁ hrun

end Inference

namespace World

variable {W : World} {σ₀ σ σ' : State}

/-! ## The flag -/

/-- A state that has gained nothing is not heavier. -/
theorem Ok.weight_le_of_not_gains (h' : W.Ok σ') (hg : σ.Grows σ') (hn : ¬ σ.Gains σ') :
    W.weight σ' ≤ W.weight σ := by
  have hsize : σ'.specs.size = σ.specs.size := by
    refine Nat.le_antisymm (Nat.le_of_not_lt fun hlt => ?_) hg.size_le
    obtain ⟨j, hj⟩ := Specializations.exists_get? (s := ⟨σ.specs.size⟩) hlt
    refine hn (.specialization (s := ⟨σ.specs.size⟩) (Option.eq_none_iff_forall_ne_some.2 ?_) hj)
    exact fun i hi => Nat.lt_irrefl _ (Specializations.lt_size hi)
  have hreturns : ∑ s ∈ Finset.range σ'.specs.size,
      (σ'.types.members (σ'.returnType ⟨s⟩)).length ≤
        ∑ s ∈ Finset.range σ.specs.size, (σ.types.members (σ.returnType ⟨s⟩)).length := by
    rw [hsize]
    refine Finset.sum_le_sum fun s hs => ?_
    obtain ⟨i, hi⟩ := Specializations.exists_get? (s := ⟨s⟩) (Finset.mem_range.1 hs)
    refine (h'.types.nodup_members.subperm fun m hm => ?_).length_le
    exact Classical.byContradiction fun hm' => hn (.returnType hi hm hm')
  have hivars : ∑ c ∈ Finset.range W.classes, ∑ n ∈ W.names,
      (σ'.types.members (σ'.ivarType ⟨c⟩ n)).length ≤
        ∑ c ∈ Finset.range W.classes, ∑ n ∈ W.names,
          (σ.types.members (σ.ivarType ⟨c⟩ n)).length := by
    refine Finset.sum_le_sum fun c _ => Finset.sum_le_sum fun n _ => ?_
    refine (h'.types.nodup_members.subperm fun m hm => ?_).length_le
    exact Classical.byContradiction fun hm' => hn (.ivar hm hm')
  simp only [weight]
  omega

/-- As long as a state counts as unchanged, nothing has been gained. -/
theorem Widens.not_gains (h : W.Ok σ) (hw : W.Widens σ σ') (hc : σ'.changed = false) :
    ¬ σ.Gains σ' := by
  obtain ⟨hh, hs⟩ := hw.same hc
  rintro (@⟨s, j, hs₀, hj⟩ | ⟨-, hm, hn⟩ | ⟨hm, hn⟩)
  · simpa [hs₀, hj] using hs s
  · have hret (s : SpecId) : σ'.returnType s = σ.returnType s := by
      have := congrArg (Option.map Prod.snd) (hs s)
      simp only [Option.map_map, Function.comp_def] at this
      simp only [State.returnType, this]
    rw [hret, (h.returnType_values _).1.members_eq hw.types] at hm
    exact hn hm
  · have hiv (c : ClassId) (n : Name) : σ'.ivarType c n = σ.ivarType c n := by
      simp only [State.ivarType, hh]
    rw [hiv, (h.ivarType_values _ _).1.members_eq hw.types] at hm
    exact hn hm

/-- If the flag is unset at first, then it tells at last whether something has been gained. -/
theorem Widens.changed_iff (h : W.Ok σ) (h' : W.Ok σ') (hw : W.Widens σ σ')
    (hc : σ.changed = false) : σ'.changed = true ↔ σ.Gains σ' := by
  constructor
  · intro hc'
    by_contra hn
    rcases hw.weight_lt hc' with hc' | hlt
    · simp [hc] at hc'
    · exact Nat.not_lt_of_le (h'.weight_le_of_not_gains hw.toGrows hn) hlt
  · intro hgain
    by_contra hc'
    exact hw.not_gains h (by simpa using hc') hgain

/-! ## States between typings -/

/-- In these states nothing is wrong, no evaluation is under way, and what has been evaluated was
evaluated in a pass that has begun. -/
theorem Ok.underway (h₀ : W.Ok σ₀) (hnone : ∀ s, σ₀.specs.get? s = none) {n : Nat}
    (h : Underway W.ctx σ₀ n σ) : W.Ok σ ∧ AllIdle σ ∧ (n ≠ 0 → σ.pass < n) ∧
      ∀ s i p, σ.specs.get? s = some i → i.donePass = some p → p < n := by
  induction h with
  | start =>
    exact ⟨h₀, fun s i hi => by simp [hnone] at hi, nofun, fun s i p hi => by simp [hnone] at hi⟩
  | @pass n σ h ih =>
    obtain ⟨hok, hidle, -, hdone⟩ := ih
    exact ⟨hok.passing hdone, hidle, fun _ => Nat.lt_succ_self n,
      fun s i p hi hp => Nat.lt_succ_of_lt (hdone s i p hi hp)⟩
  | @typed n σ σ' top h hx ih =>
    obtain ⟨hok, hidle, hpass, -⟩ := ih
    obtain ⟨top', σ'', U, hx', hf⟩ := inferTop_safe hok
    cases hx.symm.trans hx'
    have hlt : σ'.pass < n + 1 := hf.extend.pass ▸ hpass (Nat.succ_ne_zero n)
    exact ⟨hf.ok, hidle.extend hf.extend, fun _ => hlt,
      fun s i p hi hp => (hf.ok.recent s i p hi hp).trans_lt hlt⟩

end World

/-- From any state that inference may be in before anything is frozen, typing the top level ends,
whether or not statements fail, in a state with the same keys and at least the same members of return
types and instance variables, where nothing is being evaluated; and if the state was marked unchanged,
it is then marked changed just if something was gained. -/
theorem inferTop_changes (names : NameTable) (source : Source) (limits : Limits) {n : Nat} {σ : State}
    (h : Underway (register names source limits).2.1 (register names source limits).2.2 n σ) :
    ∃ top σ', inferTop (register names source limits).2.1 σ = some (top, σ') ∧
      (∀ s i, σ.specs.get? s = some i → ∃ j, σ'.specs.get? s = some j ∧ j.key = i.key) ∧
      (∀ s, σ.types.members (σ.returnType s) ⊆ σ'.types.members (σ'.returnType s)) ∧
      (∀ c n, σ.types.members (σ.ivarType c n) ⊆ σ'.types.members (σ'.ivarType c n)) ∧
      (∀ s j, σ'.specs.get? s = some j → j.stage ≠ .running) ∧
      (σ.changed = false → (σ'.changed = true ↔ σ.Gains σ')) := by
  have hk := register_prepared names source limits
  rcases hreg : register names source limits with ⟨es, ctx, σ₀⟩
  rw [hreg] at h hk
  obtain ⟨hok, hidle, -⟩ := (hk.ok Infer.storedType).underway hk.get?_specs h
  obtain ⟨top, σ', U, hx, hf⟩ := World.inferTop_safe hok
  have hg := hf.extend.toGrows
  refine ⟨top, σ', hx, fun s i hi => ?_, hok.returnType_subset hg, hok.ivarType_subset hg,
    fun s j hj => ?_, hf.extend.changed_iff hok hf.ok⟩
  · obtain ⟨j, hj, hkey, -⟩ := hg.specs s i hi
    exact ⟨j, hj, hkey⟩
  · rw [hidle.extend hf.extend s j hj]
    nofun

/-- The top level calls a function that returns, and one that is not defined. -/
def halfway : Builder := ((do
  Build.function "one" [] (← Build.int 1)
  Build.stmt (← Build.call none "one" [])
  Build.stmt (← Build.call none "two" []) : Build Unit).run {}).2

/-- The first pass has an error, and yet gains something. -/
theorem inferTop_changes_halfway : ∃ σ top σ',
    Underway (register halfway.names halfway.source {}).2.1
      (register halfway.names halfway.source {}).2.2 1 σ ∧
    inferTop (register halfway.names halfway.source {}).2.1 σ = some (top, σ') ∧
    top.errors ≠ [] ∧ σ'.changed = true ∧ σ.Gains σ' := by
  have h : Underway (register halfway.names halfway.source {}).2.1
      (register halfway.names halfway.source {}).2.2 1
      (World.passing (register halfway.names halfway.source {}).2.2 0) := .pass .start
  obtain ⟨top, σ', hx, -, -, -, -, hchanged⟩ := inferTop_changes _ _ _ h
  obtain ⟨p, hp, herr, hc⟩ : ∃ p ∈ inferTop (register halfway.names halfway.source {}).2.1
      (World.passing (register halfway.names halfway.source {}).2.2 0),
      p.1.errors ≠ [] ∧ p.2.changed = true := by decide +kernel
  cases hx.symm.trans hp
  exact ⟨_, top, σ', h, hx, herr, hc, (hchanged rfl).1 hc⟩

end Multimethod
