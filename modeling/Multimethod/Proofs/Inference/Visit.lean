import Multimethod.Proofs.Inference.Body

/-!
# Visits are safe

To visit is safe if evaluations may be nested as deeply as there are keys (`World.visit_safe`): one
that is under way is not started again, so those on the way are of different keys. With ample
limits the rounds of one evaluation end, because each makes the stored return type wider.
-/

namespace Multimethod

open Inference TypeTable

theorem Specializations.map_get?_modify {ss : Specializations} {s s' : SpecId} {α : Type}
    (f : Specialization → Specialization) (h : ∀ i, (f i).key = i.key) (g : Specialization → α)
    (hg : ∀ i, g (f i) = g i) : ((ss.modify s f h).get? s').map g = (ss.get? s').map g := by
  rw [get?_modify]
  split
  · rename_i hs
    subst hs
    simp [Function.comp_def, hg]
  · rfl

theorem Specialization.key_returnType (a : TypeId) (i : Specialization) :
    { i with returnType := a }.key = i.key := rfl

theorem Specialization.key_running (i : Specialization) :
    { i with stage := .running }.key = i.key := rfl

namespace World

variable {W : World} {σ₀ σ σ₁ σ' τ : State} {D : SpecId → Prop} {visit : SpecId → Infer TypeId}
  {s : SpecId} {i : Specialization}

/-! ## How many specializations there can be -/

/-- A member of a type, or nothing, as a number. -/
def rank (t : TypeTable) (a : Option TypeId) : Nat := (a.map fun a => (t.shape a).rank + 1).getD 0

section
variable {t : TypeTable} {n : Nat} {a b : Option TypeId}
  (ha : ∀ m ∈ a, (t.shape m).IsValue n) (hb : ∀ m ∈ b, (t.shape m).IsValue n)
include ha

theorem rank_lt : rank t a < 2 * n + 1 := by
  cases a with
  | none => simp [rank]
  | some m => simpa [rank] using (ha m rfl).rank_lt

include hb

theorem rank_inj (h : rank t a = rank t b) : a = b := by
  cases a with
  | none =>
    cases b with
    | none => rfl
    | some m => simp [rank] at h
  | some m =>
    cases b with
    | none => simp [rank] at h
    | some k =>
      have hs := (ha m rfl).rank_inj (hb k rfl) (by simpa [rank] using h)
      exact congrArg some ((Values.of_shape (ha m rfl)).1.shape_inj (Values.of_shape (hb k rfl)).1 hs)

end

theorem le_foldl_max {α : Type} (f : α → Nat) (as : List α) (n : Nat) :
    n ≤ as.foldl (fun n a => max n (f a)) n ∧ ∀ a ∈ as, f a ≤ as.foldl (fun n a => max n (f a)) n := by
  induction as generalizing n with
  | nil => simp
  | cons a as ih =>
    obtain ⟨hn, has⟩ := ih (max n (f a))
    simp only [List.foldl_cons, List.mem_cons, forall_eq_or_imp]
    exact ⟨(le_max_left _ _).trans hn, (le_max_right _ _).trans hn, has⟩

/-- The most parameters that a method has. -/
def maxParams (W : World) : Nat :=
  W.ctx.methods.methods.foldl (fun n m => max n m.definition.params.length) 0

theorem length_params_le {mid : MethodId} {m : Method} (h : W.ctx.methods.get? mid = some m) :
    m.definition.params.length ≤ W.maxParams := by
  unfold maxParams
  rw [← Array.foldl_toList]
  exact (le_foldl_max (fun m : Method => m.definition.params.length) _ 0).2 m
    (Array.mem_toList_iff.2 (Array.mem_of_getElem? h))

/-- There are no more specializations than evaluations that may be nested. -/
theorem Ok.size_le (h : W.Ok σ) : σ.specs.size ≤ nestingBound W.ctx σ := by
  set c : Nat := 2 * W.classes + 1 with hc
  set key : Nat → SpecKey := fun s =>
    ((σ.specs.get? ⟨s⟩).map (·.key)).getD ⟨⟨0⟩, none, []⟩ with hkey
  have hget {s : Nat} (hs : s ∈ Finset.range σ.specs.size) :
      ∃ i, σ.specs.get? ⟨s⟩ = some i ∧ key s = i.key ∧ W.KeyOk σ.types (key s) := by
    have hlt : (⟨s⟩ : SpecId).index < σ.specs.size := Finset.mem_range.1 hs
    obtain ⟨i, hi⟩ := Specializations.exists_get? hlt
    have hk : key s = i.key := by simp [hkey, hi]
    exact ⟨i, hi, hk, hk ▸ h.keys _ i hi⟩
  have hlen {k : SpecKey} (hk : W.KeyOk σ.types k) : k.args.length ≤ W.maxParams := by
    obtain ⟨m, hm, ha⟩ := hk.method
    simp only [Definition.acceptsArity, Bool.and_eq_true, decide_eq_true_eq] at ha
    exact ha.2.trans (length_params_le hm)
  have hargs {k : SpecKey} (hk : W.KeyOk σ.types k) (j : Nat) :
      ∀ m ∈ k.args[j]?, (σ.types.shape m).IsValue W.classes :=
    fun m hm => hk.args m (List.mem_of_getElem? hm)
  -- A key is told from all others by the numbers of its parts.
  set code : Nat → Nat × Nat × (Fin W.maxParams → Nat) := fun s =>
    ((key s).method.index, rank σ.types (key s).receiver,
      fun j => rank σ.types (key s).args[j.1]?) with hcode
  set codes : Finset (Nat × Nat × (Fin W.maxParams → Nat)) := Finset.range W.ctx.methods.size ×ˢ
    Finset.range c ×ˢ Fintype.piFinset fun _ : Fin W.maxParams => Finset.range c with hcodes
  have hmaps : Set.MapsTo code (Finset.range σ.specs.size) codes := by
    intro s hs
    obtain ⟨i, -, -, hk⟩ := hget hs
    obtain ⟨m, hm, -⟩ := hk.method
    simp only [hcodes, Finset.mem_coe, Finset.mem_product, Finset.mem_range, hcode,
      Fintype.mem_piFinset]
    exact ⟨(Array.getElem?_eq_some_iff.1 hm).1, rank_lt hk.receiver, fun j => rank_lt (hargs hk j)⟩
  have hinj : Set.InjOn code (Finset.range σ.specs.size) := by
    intro s hs s' hs' heq
    obtain ⟨i, hi, hik, hk⟩ := hget hs
    obtain ⟨i', hi', hik', hk'⟩ := hget hs'
    simp only [hcode, Prod.mk.injEq, funext_iff] at heq
    obtain ⟨hm, hr, ha⟩ := heq
    have hargs' : (key s).args = (key s').args := by
      refine List.ext_getElem? fun j => ?_
      by_cases hj : j < W.maxParams
      · exact rank_inj (hargs hk j) (hargs hk' j) (ha ⟨j, hj⟩)
      · rw [List.getElem?_eq_none ((hlen hk).trans (Nat.le_of_not_lt hj)),
          List.getElem?_eq_none ((hlen hk').trans (Nat.le_of_not_lt hj))]
    have hkeys : key s = key s' := by
      have hm' := Handle.ext_index hm
      have hr' := rank_inj hk.receiver hk'.receiver hr
      cases hks : key s
      cases hks' : key s'
      simp_all
    have hf := Specializations.find?_eq_some.2 ⟨i, hi, hik.symm⟩
    have hf' := Specializations.find?_eq_some.2 ⟨i', hi', hik'.symm⟩
    rw [hkeys] at hf
    exact congrArg Handle.index (Option.some.inj (hf.symm.trans hf'))
  have hcard := Finset.card_le_card_of_injOn code hmaps hinj
  rw [hcodes, Finset.card_range, Finset.card_product, Finset.card_product, Finset.card_range,
    Finset.card_range, Fintype.card_piFinset_const, Finset.card_range] at hcard
  rw [nestingBound, h.size_eq, Nat.pow_eq, Nat.pow_succ']
  exact hcard

/-! ## Changing what is known of a specialization -/

/-- The state after a change to what is known of a specialization. -/
def changing (σ : State) (s : SpecId) (f : Specialization → Specialization)
    (h : ∀ i, (f i).key = i.key := by intro _; rfl) : State :=
  { σ with specs := σ.specs.modify s f h }

section
variable {f : Specialization → Specialization} {hf : ∀ i, (f i).key = i.key}

variable (hf) in
theorem get?_changing (s' : SpecId) : (changing σ s f hf).specs.get? s' =
    if s' = s then (σ.specs.get? s).map f else σ.specs.get? s' :=
  Specializations.get?_modify f hf

theorem modifySpec_eq {α : Type} (x : Infer α) :
    (do Infer.modifySpec s f hf; x : Infer α) σ = x (changing σ s f hf) :=
  Infer.bind_ok rfl

variable (h : W.Ok σ) (hr : ∀ i, (f i).returnType = i.returnType)
include h hr

theorem Widens.changing : W.Widens σ (changing σ s f hf) := by
  have hmap {α : Type} (g : Specialization → α) (hg : ∀ i, g (f i) = g i) (s' : SpecId) :
      ((World.changing σ s f hf).specs.get? s').map g = (σ.specs.get? s').map g :=
    Specializations.map_get?_modify f hf g hg
  have hgrow : σ.Grows (World.changing σ s f hf) :=
    { types := le_refl _
      ivars := h.grows_refl.ivars
      specs := fun s' i hi => by
        have := hmap (fun i => (i.key, i.returnType)) (fun i => by simp only [hf, hr]) s'
        rw [hi, Option.map_some, Option.map_eq_some_iff] at this
        obtain ⟨j, hj, hij⟩ := this
        obtain ⟨hk, hrt⟩ := Prod.mk.inj hij
        exact ⟨j, hj, hk, by rw [hrt]; exact .refl (h.returns _ _ hi).1⟩ }
  exact
    { toGrows := hgrow
      pass := rfl
      changed := id
      same := fun _ => ⟨rfl, hmap _ fun i => by simp only [hf, hr]⟩
      weight_le := h.weight_le hgrow
      weight_lt := .inl }

/-- The state stays fine if what is then said to be evaluated is. -/
theorem Ok.changing
    (hbody : ∀ i, σ.specs.get? s = some i → W.RowsOk σ i.key.receiver (f i).body)
    (hnew : ∀ i, σ.specs.get? s = some i → (f i).stage = .idle →
      (f i).donePass = some σ.pass → σ.changed = false →
        ∀ τ, Later σ τ (fun _ => True) → W.Settled τ (f i))
    (hp : ∀ i, σ.specs.get? s = some i → ∀ p, (f i).donePass = some p → p ≤ σ.pass) :
    W.Ok (changing σ s f hf) := by
  have hw : W.Widens σ (World.changing σ s f hf) := .changing h hr
  have cases {s' : SpecId} {j : Specialization}
      (hj : (World.changing σ s f hf).specs.get? s' = some j) :
      (∃ i, σ.specs.get? s = some i ∧ j = f i ∧ s' = s) ∨ σ.specs.get? s' = some j := by
    rw [get?_changing] at hj
    split at hj
    · rename_i hs
      obtain ⟨i, hi, rfl⟩ := Option.map_eq_some_iff.1 hj
      exact .inl ⟨i, hi, rfl, hs⟩
    · exact .inr hj
  refine ⟨h.types, h.described, h.tree, h.ivars, fun s' j hj => ?_, fun s' j hj => ?_,
    fun s' j p hj hp' => ?_, fun s' j hj => ?_, fun s' j hj hidle hd hc τ hl => ?_⟩
  · rcases cases hj with ⟨i, hi, rfl, -⟩ | hj
    · rw [hf]; exact h.keys s i hi
    · exact h.keys s' j hj
  · rcases cases hj with ⟨i, hi, rfl, -⟩ | hj
    · rw [hr]; exact h.returns s i hi
    · exact h.returns s' j hj
  · rcases cases hj with ⟨i, hi, rfl, -⟩ | hj
    · exact hp i hi p hp'
    · exact h.recent s' j p hj hp'
  · rcases cases hj with ⟨i, hi, rfl, -⟩ | hj
    · rw [hf]
      exact hw.rowsOk h.types (h.keys s i hi).receiver_has (hbody i hi)
    · exact hw.rowsOk h.types (h.keys s' j hj).receiver_has (h.rows s' j hj)
  · have hl' := hw.later hc _ hl
    rcases cases hj with ⟨i, hi, rfl, -⟩ | hj
    · exact hnew i hi hidle hd hc τ hl'
    · exact h.settled s' j hj hidle hd hc τ hl'

variable (hf) in
/-- A change to a specialization that is under way. -/
theorem Extends.changing (hi : σ.specs.get? s = some i) (hrun : i.stage = .running)
    (hbody : W.RowsOk σ i.key.receiver (f i).body) (hs : ∀ i, (f i).stage = i.stage)
    (hd : ∀ i, (f i).donePass = i.donePass := by intro _; rfl) :
    W.Ok (changing σ s f hf) ∧ W.Extends σ (changing σ s f hf) ∧
      (Closed σ → Closed (changing σ s f hf)) := by
  have hok : W.Ok (World.changing σ s f hf) := by
    refine .changing h hr (fun j hj => ?_) (fun j hj hidle _ => ?_)
      fun j hj p hp => h.recent s j p hj (hd j ▸ hp)
    · cases hi.symm.trans hj
      exact hbody
    · cases hi.symm.trans hj
      rw [hs, hrun] at hidle
      cases hidle
  have hext : W.Extends σ (World.changing σ s f hf) :=
    { toWidens := .changing h hr
      stage := fun s' j k hj hk => by
        rw [get?_changing] at hk
        split at hk
        · rename_i hss
          subst hss
          rw [hj] at hk
          cases hk
          exact hs j
        · cases hj.symm.trans hk; rfl
      done := fun s' j hj hidle _ => by
        rw [get?_changing, if_neg, hj]
        rintro rfl
        cases hi.symm.trans hj
        rw [hrun] at hidle
        cases hidle
      fresh := fun s' k hn hk => by
        rw [get?_changing] at hk
        split at hk
        · rename_i hss
          subst hss
          simp [hn] at hk
        · simp [hn] at hk }
  refine ⟨hok, hext, fun hcl s' j hj hidle hd => hext.reachedBy (hcl s' j ?_ hidle hd)⟩
  rw [get?_changing] at hj
  split at hj
  · rw [hi, Option.map_some] at hj
    cases hj
    rw [hs, hrun] at hidle
    cases hidle
  · exact hj

end

/-- The state after a specialization was found to return more. -/
def widening (σ : State) (s : SpecId) (a : TypeId) : State :=
  { changing σ s (fun i => { i with returnType := a }) (Specialization.key_returnType a) with
    changed := true }

theorem get?_widening (hi : σ.specs.get? s = some i) {a : TypeId} (s' : SpecId) :
    (widening σ s a).specs.get? s' =
      if s' = s then some { i with returnType := a } else σ.specs.get? s' := by
  have := get?_changing (σ := σ) (s := s) (f := fun i => { i with returnType := a })
    (fun _ => rfl) s'
  rw [hi] at this
  exact this

section
variable (h : W.Ok σ) (hi : σ.specs.get? s = some i) (hrun : i.stage = .running) {a : TypeId}
  (hin : σ.types.Inside i.returnType a)

include hi in
theorem widening_cases {s' : SpecId} {j : Specialization}
    (hj : (widening σ s a).specs.get? s' = some j) :
    s' = s ∧ j = { i with returnType := a } ∨ σ.specs.get? s' = some j := by
  rw [get?_widening hi] at hj
  split at hj
  · rename_i hs
    cases hj
    exact .inl ⟨hs, rfl⟩
  · exact .inr hj

include hi hrun in
/-- What is not under way was there before. -/
theorem get?_of_widening {s' : SpecId} {j : Specialization}
    (hj : (widening σ s a).specs.get? s' = some j) (hidle : j.stage = .idle) :
    σ.specs.get? s' = some j := by
  rcases widening_cases hi hj with ⟨-, rfl⟩ | hj
  · cases hrun.symm.trans hidle
  · exact hj

include h hi hin in
theorem widening_grows : σ.Grows (widening σ s a) where
  types := le_refl _
  ivars := h.grows_refl.ivars
  specs := fun s' j hj => by
    rw [get?_widening hi]
    split
    · rename_i hs
      subst hs
      cases hi.symm.trans hj
      exact ⟨_, rfl, rfl, hin⟩
    · exact ⟨j, hj, rfl, .refl (h.returns _ _ hj).1⟩

include h hi hrun hin in
/-- A wider return type makes the state heavier. -/
theorem widening_extends (hne : a ≠ i.returnType) : W.Extends σ (widening σ s a) := by
  have hgrow := widening_grows h hi hin
  have hlt : (σ.types.members (σ.returnType s)).length <
      ((widening σ s a).types.members ((widening σ s a).returnType s)).length := by
    have h₁ : (widening σ s a).returnType s = a := by simp [State.returnType, get?_widening hi]
    have h₂ : σ.returnType s = i.returnType := by simp [State.returnType, hi]
    rw [h₁, h₂]
    exact hin.length_lt h.types hne.symm
  exact
    { toGrows := hgrow
      pass := rfl
      changed := fun _ => rfl
      same := fun hc => by cases hc
      weight_le := h.weight_le hgrow
      weight_lt := fun _ => .inr (h.weight_lt_of_returnType hgrow
        (Specializations.lt_size hi) hlt)
      stage := fun s' j k hj hk => by
        rcases widening_cases hi hk with ⟨rfl, rfl⟩ | hk
        · cases hi.symm.trans hj
          rfl
        · cases hj.symm.trans hk; rfl
      done := fun s' j hj hidle _ => by
        rw [get?_widening hi, if_neg, hj]
        rintro rfl
        cases hi.symm.trans hj
        cases hrun.symm.trans hidle
      fresh := fun s' k hn hk => by
        rcases widening_cases hi hk with ⟨rfl, -⟩ | hk
        · cases hn.symm.trans hi
        · cases hn.symm.trans hk }

include h hi hrun hin in
theorem Extends.widening (ha : σ.types.Values W.classes a) (hne : a ≠ i.returnType) :
    W.Ok (widening σ s a) ∧ W.Extends σ (widening σ s a) ∧
      (Closed σ → Closed (widening σ s a)) := by
  have hext := widening_extends h hi hrun hin hne
  refine ⟨h.next hext h.types h.tree h.ivars (fun s' j hj => ?_) (fun s' j hj => ?_)
    (fun s' j p hj hp => ?_) (fun s' j hj => ?_) fun s' j hj hidle _ =>
      get?_of_widening hi hrun hj hidle, hext, fun hcl s' j hj hidle hd =>
        hext.reachedBy (hcl s' j (get?_of_widening hi hrun hj hidle) hidle hd)⟩
  · rcases widening_cases hi hj with ⟨-, rfl⟩ | hj
    · exact h.keys s i hi
    · exact h.keys s' j hj
  · rcases widening_cases hi hj with ⟨-, rfl⟩ | hj
    · exact ha
    · exact h.returns s' j hj
  · rcases widening_cases hi hj with ⟨-, rfl⟩ | hj
    · exact h.recent s i p hi hp
    · exact h.recent s' j p hj hp
  · rcases widening_cases hi hj with ⟨rfl, rfl⟩ | hj
    · exact .inr ⟨i, hi, rfl, rfl⟩
    · exact .inr ⟨j, hj, rfl, rfl⟩

end

/-! ## Evaluating until the result fits -/

/-- What the evaluation of a specialization that answers `a` has left behind; `C` says that all
calls led to what was reached when it began. -/
structure Evaluated (W : World) (C : Prop) (s : SpecId) (a : TypeId) (σ : State) : Prop where
  values : σ.types.Values W.classes a
  stored : σ.returnType s = a
  reached : C → ∀ i, σ.specs.get? s = some i → ReachedBy σ i.body
  settled : σ.changed = false → ∀ i, σ.specs.get? s = some i →
    ∀ τ, Later σ τ (fun _ => True) → W.Settled τ i

/-- From a state on to which a computation comes first. -/
theorem Safe.after {α : Type} {x y : Infer α} {P : α → State → Prop} {τ : State}
    (he : W.Extends σ τ) (hc : Closed σ → Closed τ) (hx : x σ = y τ) (h : W.Safe τ y P) :
    W.Safe σ x P := by
  obtain ⟨r, σ', hy, hok, hext, hend⟩ := h
  refine ⟨r, σ', hx.trans hy, hok, he.trans hext, ?_⟩
  cases r with
  | error e => exact hend
  | ok a => exact ⟨hend.1, fun h => hend.2 (hc h)⟩

theorem divergence_eq (σ : State) (key : SpecKey) :
    ∃ e, Infer.divergence W.ctx key σ = some (.ok e, σ) := ⟨_, rfl⟩

/-- Storing what an evaluation has found of a specialization: its body, and then the union `w` of the
result with what was stored decides how things go on. -/
theorem stored_safe (h : W.Ok σ) (hi : σ.specs.get? s = some i) (hrun : i.stage = .running)
    {result : TypeId} {body : Body} (hr : σ.types.Values W.classes result)
    (hrows : W.RowsOk σ i.key.receiver body) :
    ∃ w σ', W.Ok σ' ∧ W.Extends σ σ' ∧ (Closed σ → Closed σ') ∧
      σ'.types.Joins i.returnType result w ∧ σ'.specs.get? s = some { i with body } ∧
      ∀ rest : TypeId → TypeId → Infer TypeId, (do
        let provisional ← Infer.storedType s
        let widened ← Infer.union provisional result
        Infer.modifySpec s fun i => { i with body }
        rest provisional widened) σ = rest i.returnType w σ' := by
  have hprov : σ.returnType s = i.returnType := by simp [State.returnType, hi]
  have hs := union_joins h.types (h.returns s i hi).1 hr.1
  obtain ⟨h₁, he₁⟩ := Extends.of_types h hs.wf hs.le
  obtain ⟨h', he', hc'⟩ := Extends.changing (f := fun i => { i with body }) (fun _ => rfl) h₁
    (fun _ => rfl) hi hrun (he₁.rowsOk h.types (h.keys s i hi).receiver_has hrows) fun _ => rfl
  refine ⟨_, _, h', he₁.trans he', hc', hs.post.mono he'.types, ?_, fun rest => ?_⟩
  · rw [get?_changing, if_pos rfl, hi]
    rfl
  · rw [Infer.bind_ok (storedType_eq σ s), hprov]
    exact (Infer.bind_ok rfl).trans (modifySpec_eq _)

/-- Evaluating a specialization that is under way until the result fits. -/
theorem widen_safe (hv : W.Visits σ₀ visit) {key : SpecKey} (rounds : Nat) {C : Prop}
    (h : W.Ok σ) (h₀ : W.Extends σ₀ σ) (hC : C → Closed σ) (hi : σ.specs.get? s = some i)
    (hkey : i.key = key) (hrun : i.stage = .running)
    (hample : W.Ample → 2 * W.classes < rounds + (σ.types.members (σ.returnType s)).length) :
    W.Safe σ (Infer.widen W.ctx visit s key rounds) (W.Evaluated C s) := by
  induction rounds generalizing σ i with
  | zero =>
    obtain ⟨e, he⟩ := divergence_eq (W := W) σ key
    simp only [Infer.widen]
    refine Safe.congr (Infer.bind_ok he) (.throw h fun ha => ?_)
    have := hample ha
    have := (h.returnType_values s).length_le h.types
    omega
  | succ rounds ih =>
    simp only [Infer.widen]
    obtain ⟨h₁, he₁, hc₁⟩ := Extends.changing (f := fun i => { i with answers := [] })
      (fun _ => rfl) h (fun _ => rfl) hi hrun (h.rows s i hi) fun _ => rfl
    refine Safe.after he₁ hc₁ (modifySpec_eq _) ?_
    refine (evaluate_safe hv h₁ (h₀.trans he₁) (hkey ▸ h.keys s i hi)).bind
      fun evaluated σ₂ h₂ he₂ hends => ?_
    obtain ⟨result, body⟩ := evaluated
    obtain ⟨hrv, hrows, hcl, hchecks⟩ := hends
    obtain ⟨i₂, hi₂, hkey₂, -⟩ := (he₁.trans he₂).specs s i hi
    rw [hkey] at hkey₂
    have hrun₂ := ((he₁.trans he₂).stage s i i₂ hi hi₂).trans hrun
    obtain ⟨w, σ₃, h₃, he₃, hc₃, hj, hi₃, hrest⟩ :=
      stored_safe h₂ hi₂ hrun₂ hrv (hkey₂ ▸ hrows)
    have hret := h₂.returns s i₂ hi₂
    have hwv : σ₃.types.Values W.classes w :=
      .of_joins hj (hret.mono h₂.types he₃.types) (hrv.mono h₂.types he₃.types)
    have hC₃ (hc : C) : ReachedBy σ₃ body := he₃.reachedBy (hcl (hc₁ (hC hc))).2
    refine Safe.after he₃ hc₃ (hrest _) ?_
    by_cases hw : w = i₂.returnType
    · rw [if_pos hw]
      refine .pure h₃ ⟨hret.mono h₂.types he₃.types, by simp [State.returnType, hi₃],
        fun hc j hj => ?_, fun hch j hj' τ hl => ?_⟩
      · cases hi₃.symm.trans hj
        exact hC₃ hc
      · cases hi₃.symm.trans hj'
        refine hchecks (he₃.unchanged hch) τ (he₃.later hch _ hl) _ hkey₂ rfl ?_
        rw [hw] at hj
        exact hj.right.mono hl.types
    · rw [if_neg hw]
      obtain ⟨h₄, he₄, hc₄⟩ := Extends.widening h₃ hi₃ hrun₂ hj.left hwv hw
      set σ₄ := widening σ₃ s w with hσ₄
      have hi₄ : σ₄.specs.get? s = some { i₂ with body, returnType := w } := by
        rw [hσ₄, get?_widening hi₃, if_pos rfl]
      refine Safe.after (y := do
        if (← Infer.spec? s).all (·.answers.isEmpty) then return w
        else Infer.widen W.ctx visit s key rounds) he₄ hc₄ ((modifySpec_eq _).trans
          (Infer.bind_ok rfl)) ?_
      refine Safe.congr (Infer.bind_ok (a := σ₄.specs.get? s) (τ := σ₄) rfl) ?_
      have hch₄ : σ₄.changed ≠ false := by simp [hσ₄, widening]
      split
      · refine .pure h₄ ⟨hwv.mono h₃.types he₄.types, by simp [State.returnType, hi₄],
          fun hc j hj => ?_, fun hch => absurd hch hch₄⟩
        cases hi₄.symm.trans hj
        exact he₄.reachedBy (hC₃ hc)
      · have he₀₄ := (he₁.trans he₂).trans (he₃.trans he₄)
        refine ih h₄ (h₀.trans he₀₄) (fun hc => hc₄ (hc₃ (hcl (hc₁ (hC hc))).1)) hi₄ hkey₂ hrun₂
          fun ha => ?_
        -- The stored return type has become wider.
        have hlt : (σ₃.types.members i₂.returnType).length < (σ₃.types.members w).length :=
          hj.left.length_lt h₃.types fun h => hw h.symm
        have h₁₂ := h.length_returnType_le (he₁.trans he₂).toGrows s
        have := hample ha
        have h₂' : σ₂.returnType s = i₂.returnType := by simp [State.returnType, hi₂]
        have h₄' : σ₄.returnType s = w := by simp [State.returnType, hi₄]
        rw [h₂', ← hret.1.members_eq he₃.types] at h₁₂
        rw [h₄']
        show _ < _ + (σ₃.types.members w).length
        omega

/-! ## Answering visits -/

/-- The specializations that are under way. -/
def running (σ : State) : Finset Nat :=
  (Finset.range σ.specs.size).filter fun s => ∃ i, σ.specs.get? ⟨s⟩ = some i ∧ i.stage = .running

theorem mem_running : s.index ∈ running σ ↔ ∃ i, σ.specs.get? s = some i ∧ i.stage = .running := by
  rw [running, Finset.mem_filter, Finset.mem_range]
  exact ⟨And.right, fun h => ⟨Specializations.lt_size h.choose_spec.1, h⟩⟩

theorem running_ext (h : ∀ s, (∃ i, σ.specs.get? s = some i ∧ i.stage = .running) ↔
    ∃ i, σ'.specs.get? s = some i ∧ i.stage = .running) : running σ = running σ' :=
  Finset.ext fun n => (mem_running (s := ⟨n⟩)).trans ((h ⟨n⟩).trans mem_running.symm)

/-- The same evaluations are under way afterwards. -/
theorem Extends.running_eq (h : W.Extends σ σ') : running σ' = running σ := by
  refine running_ext fun s => ⟨fun ⟨j, hj, hrun⟩ => ?_, fun ⟨i, hi, hrun⟩ => ?_⟩
  · cases hi : σ.specs.get? s with
    | none => simp [h.fresh s j hi hj] at hrun
    | some i => exact ⟨i, rfl, (h.stage s i j hi hj).symm.trans hrun⟩
  · obtain ⟨j, hj, -⟩ := h.specs s i hi
    exact ⟨j, hj, (h.stage s i j hi hj).trans hrun⟩

/-- The state in which a specialization is under way. -/
def starting (σ : State) (s : SpecId) : State :=
  changing σ s (fun i => { i with stage := .running }) Specialization.key_running

/-- The state in which a specialization has been evaluated, with success or not. -/
def finishing (σ : State) (s : SpecId) (pass : Option Nat) : State :=
  changing σ s fun i => { i with stage := .idle, donePass := pass }

theorem get?_starting (s' : SpecId) : (starting σ s).specs.get? s' =
    if s' = s then (σ.specs.get? s).map fun i => { i with stage := .running }
    else σ.specs.get? s' := get?_changing _ s'

theorem get?_finishing {pass : Option Nat} (s' : SpecId) : (finishing σ s pass).specs.get? s' =
    if s' = s then (σ.specs.get? s).map fun i => { i with stage := .idle, donePass := pass }
    else σ.specs.get? s' := get?_changing _ s'

theorem get?_starting_self (hi : σ.specs.get? s = some i) :
    (starting σ s).specs.get? s = some { i with stage := .running } := by
  rw [get?_starting, if_pos rfl, hi]
  rfl

theorem get?_finishing_self (hi : σ.specs.get? s = some i) (pass : Option Nat) :
    (finishing σ s pass).specs.get? s = some { i with stage := .idle, donePass := pass } := by
  rw [get?_finishing, if_pos rfl, hi]
  rfl

theorem returnType_finishing {pass : Option Nat} (s' : SpecId) :
    (finishing σ s pass).returnType s' = σ.returnType s' := by
  simp only [State.returnType, get?_finishing]
  split
  · rename_i hs
    subst hs
    simp [Function.comp_def]
  · rfl

theorem card_running_starting (hi : σ.specs.get? s = some i) (hidle : i.stage = .idle) :
    (running (starting σ s)).card = (running σ).card + 1 := by
  have hs : s.index ∉ running σ := fun h => by
    obtain ⟨j, hj, hrun⟩ := mem_running.1 h
    cases hi.symm.trans hj
    rw [hidle] at hrun
    cases hrun
  rw [← Finset.card_insert_of_notMem hs]
  congr 1
  ext n
  have hn : n = s.index ↔ (⟨n⟩ : SpecId) = s :=
    ⟨fun h => Handle.ext_index h, fun h => congrArg Handle.index h⟩
  rw [Finset.mem_insert, hn, mem_running (s := ⟨n⟩), mem_running (s := ⟨n⟩), get?_starting]
  by_cases hns : (⟨n⟩ : SpecId) = s
  · simp [hns, hi]
  · simp [hns]

/-- An idle specialization takes a place that is free. -/
theorem card_running_lt (h : W.Ok σ) (hi : σ.specs.get? s = some i) (hidle : i.stage = .idle) :
    (running σ).card < nestingBound W.ctx σ := by
  refine lt_of_lt_of_le ?_ h.size_le
  rw [← Finset.card_range σ.specs.size]
  refine Finset.card_lt_card (Finset.ssubset_iff_subset_ne.2 ⟨Finset.filter_subset _ _, fun he => ?_⟩)
  have hs : s.index ∈ running σ := by
    rw [he, Finset.mem_range]
    exact Specializations.lt_size hi
  obtain ⟨j, hj, hrun⟩ := mem_running.1 hs
  cases hi.symm.trans hj
  rw [hidle] at hrun
  cases hrun

theorem nestingBound_eq (h : W.Ok σ) (h' : W.Ok σ') :
    nestingBound W.ctx σ' = nestingBound W.ctx σ := by
  simp only [nestingBound, h.size_eq, h'.size_eq]

theorem Reached.changing {f : Specialization → Specialization} {hf : ∀ i, (f i).key = i.key}
    (hi : σ.specs.get? s = some i) (hfi : (f i).stage ≠ .idle ∨ (f i).donePass = some σ.pass)
    {callee : Callee} (hr : Reached σ callee) : Reached (changing σ s f hf) callee := by
  have spec {s' : SpecId} : (∃ j, σ.specs.get? s' = some j ∧
      (j.stage ≠ .idle ∨ j.donePass = some σ.pass)) →
      ∃ j, (World.changing σ s f hf).specs.get? s' = some j ∧
        (j.stage ≠ .idle ∨ j.donePass = some σ.pass) := by
    rintro ⟨j, hj, hr⟩
    by_cases hs : s' = s
    · subst hs
      exact ⟨f i, by rw [get?_changing, if_pos rfl, hi]; rfl, hfi⟩
    · exact ⟨j, by rw [get?_changing, if_neg hs, hj], hr⟩
  cases callee with
  | specialization s => exact spec hr
  | allocate c => trivial
  | new c initializer =>
    cases initializer with
    | none => trivial
    | some s => exact spec hr

theorem closed_starting (hi : σ.specs.get? s = some i) (hc : Closed σ) :
    Closed (starting σ s) := fun s' j hj hidle hd e r c callee hf => by
  rw [get?_starting] at hj
  split at hj
  · rw [hi] at hj
    cases hj
    cases hidle
  · exact Reached.changing (f := fun i => { i with stage := .running }) hi (.inl (by simp))
      (hc s' j hj hidle hd e r c callee hf)

theorem starting_ok (h : W.Ok σ) : W.Ok (starting σ s) :=
  .changing h (fun _ => rfl) (fun i hi => h.rows s i hi) (fun _ _ hidle _ => by cases hidle)
    fun i hi p hp => h.recent s i p hi hp

/-- An evaluation from start to finish is an extension. -/
theorem Extends.around (h : W.Ok σ) (hi : σ.specs.get? s = some i) (hidle : i.stage = .idle)
    (hnd : i.donePass ≠ some σ.pass) (he : W.Extends (starting σ s) σ') (h' : W.Ok σ')
    (pass : Option Nat) : W.Extends σ (finishing σ' s pass) := by
  have hstart : W.Widens σ (starting σ s) := .changing h fun _ => rfl
  have hfinish : W.Widens σ' (finishing σ' s pass) := .changing h' fun _ => rfl
  refine { toWidens := hstart.trans (he.toWidens.trans hfinish), stage := ?_, done := ?_,
           fresh := ?_ }
  · intro s' j k hj hk
    rw [get?_finishing] at hk
    split at hk
    · rename_i hs
      subst hs
      cases hi.symm.trans hj
      obtain ⟨l, -, rfl⟩ := Option.map_eq_some_iff.1 hk
      exact hidle.symm
    · rename_i hs
      exact he.stage s' j k (by rw [get?_starting, if_neg hs, hj]) hk
  · intro s' j hj hidle' hd
    have hs : s' ≠ s := by
      rintro rfl
      cases hi.symm.trans hj
      exact hnd hd
    rw [get?_finishing, if_neg hs]
    exact he.done s' j (by rw [get?_starting, if_neg hs, hj]) hidle' hd
  · intro s' k hn hk
    have hs : s' ≠ s := by
      rintro rfl
      simp [hn] at hi
    rw [get?_finishing, if_neg hs] at hk
    exact he.fresh s' k (by rw [get?_starting, if_neg hs, hn]) hk

section
variable {run : SpecId → SpecKey → Infer TypeId} (hi : σ.specs.get? s = some i)
include hi

theorem visitWith_stored (hs : i.stage = .frozen ∨ i.stage = .idle ∧ i.donePass = some σ.pass) :
    Infer.visitWith run s σ = some (.ok i.returnType, σ) := by
  have hspec : Infer.spec? s σ = some (.ok (some i), σ) := by rw [← hi]; rfl
  unfold Infer.visitWith
  rw [Infer.bind_ok hspec]
  rcases hs with hs | ⟨hs, hd⟩
  · simp only [hs]
    rfl
  · simp only [hs]
    rw [Infer.bind_ok (a := σ) (τ := σ) rfl, if_pos hd]
    rfl

theorem visitWith_running (hs : i.stage = .running) : Infer.visitWith run s σ =
    some (.ok i.returnType, changing σ s fun i => { i with
      answers := i.returnType :: i.answers }) := by
  have hspec : Infer.spec? s σ = some (.ok (some i), σ) := by rw [← hi]; rfl
  unfold Infer.visitWith
  rw [Infer.bind_ok hspec]
  simp only [hs]
  rw [modifySpec_eq]
  rfl

theorem visitWith_idle (hs : i.stage = .idle) (hnd : i.donePass ≠ some σ.pass)
    {r : Except TypeError TypeId} (hx : run s i.key (starting σ s) = some (r, σ')) :
    Infer.visitWith run s σ =
      some (r, finishing σ' s (if r.isOk then some σ.pass else none)) := by
  have hspec : Infer.spec? s σ = some (.ok (some i), σ) := by rw [← hi]; rfl
  have hattempt : Infer.attempt (run s i.key) (starting σ s) = some (.ok r, σ') := by
    show (run s i.key (starting σ s) >>= fun p => (some (Except.ok p.1, p.2) : Option _)) = _
    rw [hx]; rfl
  unfold Infer.visitWith
  rw [Infer.bind_ok hspec]
  simp only [hs]
  rw [Infer.bind_ok (a := σ) (τ := σ) rfl, if_neg hnd, modifySpec_eq]
  exact (Infer.bind_ok hattempt).trans (modifySpec_eq _)

/-- Answering a visit is safe if evaluating is. -/
theorem visitWith_safe (h : W.Ok σ) (hrun : i.stage = .idle → i.donePass ≠ some σ.pass →
      W.Safe (starting σ s) (run s i.key) (W.Evaluated (Closed (starting σ s)) s)) :
    W.Safe σ (Infer.visitWith run s) fun a σ' => σ'.types.Values W.classes a ∧
      Reached σ' (.specialization s) ∧ σ'.returnType s = a := by
  have hret := h.returns s i hi
  have stored (hs : i.stage ≠ .idle ∨ i.donePass = some σ.pass)
      (hx : Infer.visitWith run s σ = some (.ok i.returnType, σ)) :
      W.Safe σ (Infer.visitWith run s) fun a σ' => σ'.types.Values W.classes a ∧
        Reached σ' (.specialization s) ∧ σ'.returnType s = a :=
    ⟨_, σ, hx, h, .refl h, ⟨hret, ⟨i, hi, hs⟩, by simp [State.returnType, hi]⟩, id⟩
  cases hs : i.stage with
  | frozen => exact stored (.inl (by simp [hs])) (visitWith_stored hi (.inl hs))
  | running =>
    obtain ⟨h', he, hc⟩ := Extends.changing
      (f := fun i => { i with answers := i.returnType :: i.answers }) (fun _ => rfl)
      h (fun _ => rfl) hi hs (h.rows s i hi) fun _ => rfl
    refine ⟨_, _, visitWith_running hi hs, h', he, ⟨hret, ?_, ?_⟩, hc⟩
    · have hr : Reached σ (.specialization s) := ⟨i, hi, .inl (by simp [hs])⟩
      exact Reached.changing hi (.inl (by simp [hs])) hr
    · simp [State.returnType, get?_changing, hi]
  | idle =>
    by_cases hd : i.donePass = some σ.pass
    · exact stored (.inr hd) (visitWith_stored hi (.inr ⟨hs, hd⟩))
    obtain ⟨r, σ', hx, h', he, hend⟩ := hrun hs hd
    have hpass : σ'.pass = σ.pass := he.pass
    have hext (pass) := Extends.around h hi hs hd he h' pass
    refine ⟨r, _, visitWith_idle hi hs hd hx, ?_, hext _, ?_⟩
    · refine .changing h' (fun _ => rfl) (fun j hj => h'.rows s j hj) (fun j hj _ hdone => ?_)
        fun j hj p hp => ?_
      · cases r with
        | error e => cases hdone
        | ok a =>
          -- What is said of the specialization does not depend on its stage.
          exact fun hch τ hl => ⟨(hend.1.settled hch j hj τ hl).1.congr rfl rfl rfl,
            (hend.1.settled hch j hj τ hl).2⟩
      · cases r with
        | error e => cases hp
        | ok a => cases hp; exact Nat.le_of_eq hpass.symm
    · cases r with
      | error e => exact hend
      | ok a =>
        obtain ⟨hev, hcl⟩ := hend
        obtain ⟨j, hj, -⟩ := he.specs s _ (get?_starting_self hi)
        have reach {callee : Callee} (hr : Reached σ' callee) :
            Reached (finishing σ' s (some σ.pass)) callee :=
          Reached.changing hj (.inr (by rw [hpass])) hr
        refine ⟨⟨hev.values, ?_, ?_⟩, fun hc s' k hk hidle hdone => ?_⟩
        · exact ⟨_, get?_finishing_self hj (some σ.pass), .inr (by rw [← hpass]; rfl)⟩
        · rw [← hev.stored]
          exact returnType_finishing s
        · have hc₁ := closed_starting hi hc
          have hk' : (finishing σ' s (some σ.pass)).specs.get? s' = some k := hk
          rw [get?_finishing] at hk'
          split at hk'
          · rw [hj] at hk'
            cases hk'
            exact fun e r c callee hf => reach (hev.reached hc₁ j hj e r c callee hf)
          · exact fun e r c callee hf => reach (hcl hc₁ s' k hk' hidle hdone e r c callee hf)

end

/-- Visits are safe if evaluations may be nested deeply enough. -/
theorem visit_safe (depth : Nat) (h : W.Ok σ) (hi : σ.specs.get? s = some i)
    (hdepth : nestingBound W.ctx σ ≤ depth + (running σ).card) :
    W.Safe σ (Infer.visit W.ctx depth s) fun a σ' => σ'.types.Values W.classes a ∧
      Reached σ' (.specialization s) ∧ σ'.returnType s = a := by
  induction depth generalizing σ s i with
  | zero =>
    refine visitWith_safe hi h fun hidle _ => ?_
    have := card_running_lt h hi hidle
    omega
  | succ depth ih =>
    refine visitWith_safe hi h fun hidle _ => ?_
    have h₁ : W.Ok (starting σ s) := starting_ok h
    have hv : W.Visits (starting σ s) (Infer.visit W.ctx depth) := fun σ' s' h' he' ⟨i', hi'⟩ => by
      refine ih h' hi' ?_
      rw [he'.running_eq, card_running_starting hi hidle, nestingBound_eq h h']
      omega
    refine widen_safe hv _ h₁ (.refl h₁) id (i := { i with stage := .running })
      (get?_starting_self hi) rfl rfl fun ha => ?_
    have := ha.1
    omega

theorem visits_visit (h : W.Ok σ) : W.Visits σ (Infer.visit W.ctx (nestingBound W.ctx σ)) :=
  fun σ' s h' _ ⟨i, hi⟩ => visit_safe _ h' hi (by rw [nestingBound_eq h h']; omega)

end World

end Multimethod
