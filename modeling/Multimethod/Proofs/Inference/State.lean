import Multimethod.Proofs.Dispatch
import Multimethod.Proofs.Inference.Typed
import Multimethod.Proofs.Specialization

/-!
# States of inference that only grow

Everything that inference does to its state widens it (`World.Extends`): more types are described,
return types and instance variables get wider, new specializations come in. A state that has
changed is heavier than before (`World.weight`), and in one that has not, whatever was found stays
true (`World.Widens.later`). What holds of every state on the way is `World.Ok`.
-/

namespace Multimethod

open Inference TypeTable

namespace Inference

/-- Types, instance variables and return types get wider, and no specialization is lost. -/
structure State.Grows (σ σ' : State) : Prop where
  types : σ.types ≤ σ'.types
  ivars : ∀ c n a, σ.hierarchy.ivarType c n = some a →
    ∃ b, σ'.hierarchy.ivarType c n = some b ∧ σ'.types.Inside a b
  specs : ∀ s i, σ.specs.get? s = some i → ∃ j, σ'.specs.get? s = some j ∧ j.key = i.key ∧
    σ'.types.Inside i.returnType j.returnType

namespace State.Grows

variable {σ σ₁ σ' : State}

theorem trans (h : σ.Grows σ₁) (h' : σ₁.Grows σ') : σ.Grows σ' where
  types := le_trans h.types h'.types
  ivars c n a ha := by
    obtain ⟨b, hb, hab⟩ := h.ivars c n a ha
    obtain ⟨d, hd, hbd⟩ := h'.ivars c n b hb
    exact ⟨d, hd, (hab.mono h'.types).trans hbd⟩
  specs s i hi := by
    obtain ⟨j, hj, hk, hij⟩ := h.specs s i hi
    obtain ⟨l, hl, hk', hjl⟩ := h'.specs s j hj
    exact ⟨l, hl, hk'.trans hk, (hij.mono h'.types).trans hjl⟩

theorem keeps (h : σ.Grows σ') : σ.specs.Keeps σ'.specs := by
  intro key s hs
  obtain ⟨i, hi, hk⟩ := Specializations.find?_eq_some.1 hs
  obtain ⟨j, hj, hk', -⟩ := h.specs s i hi
  exact Specializations.find?_eq_some.2 ⟨j, hj, hk'.trans hk⟩

theorem size_le (h : σ.Grows σ') : σ.specs.size ≤ σ'.specs.size := by
  by_contra hlt
  have hlt' : (⟨σ'.specs.size⟩ : SpecId).index < σ.specs.size := Nat.lt_of_not_le hlt
  obtain ⟨i, hi⟩ := Specializations.exists_get? hlt'
  obtain ⟨j, hj, -⟩ := h.specs _ i hi
  exact Nat.lt_irrefl _ (Specializations.lt_size hj)

end State.Grows

/-- The stored return type of a specialization. -/
def State.returnType (σ : State) (s : SpecId) : TypeId :=
  ((σ.specs.get? s).map (·.returnType)).getD .never

/-- The assigned type of an instance variable. -/
def State.ivarType (σ : State) (c : ClassId) (n : Name) : TypeId :=
  (σ.hierarchy.ivarType c n).getD .never

/-- A later state in which, with the specializations in `D`, nothing has become wider. -/
structure Later (σ τ : State) (D : SpecId → Prop) : Prop where
  wf : τ.types.WF
  types : σ.types ≤ τ.types
  hierarchy : τ.hierarchy = σ.hierarchy
  keys : ∀ s, (τ.specs.get? s).map (·.key) = (σ.specs.get? s).map (·.key)
  returns : ∀ s, D s →
    (τ.specs.get? s).map (·.returnType) = (σ.specs.get? s).map (·.returnType)

namespace Later

variable {σ τ : State} {D D' : SpecId → Prop}

theorem imp (h : Later σ τ D) (hD : ∀ s, D' s → D s) : Later σ τ D' :=
  { h with returns := fun s hs => h.returns s (hD s hs) }

theorem find?_eq (h : Later σ τ D) (key : SpecKey) :
    τ.specs.find? key = σ.specs.find? key := by
  refine Option.ext fun s => ?_
  simp only [Specializations.find?_eq_some]
  have := h.keys s
  cases hσ : σ.specs.get? s <;> cases hτ : τ.specs.get? s <;> simp_all

theorem returnType_eq (h : Later σ τ D) {s : SpecId} (hs : D s) :
    τ.returnType s = σ.returnType s := by simp only [State.returnType, h.returns s hs]

end Later

/-- Whether a callee has been evaluated in this pass, or is on the way to that. -/
def Reached (σ : State) : Callee → Prop
  | .specialization s | .new _ (some s) =>
    ∃ i, σ.specs.get? s = some i ∧ (i.stage ≠ .idle ∨ i.donePass = some σ.pass)
  | _ => True

/-- The rows of a body lead to what is reached. -/
def ReachedBy (σ : State) (b : Body) : Prop :=
  ∀ e r c callee, (b.dispatchAt e).find? r c = some callee → Reached σ callee

/-- Whatever has been evaluated in this pass leads to what is reached. -/
def Closed (σ : State) : Prop :=
  ∀ s i, σ.specs.get? s = some i → i.stage = .idle → i.donePass = some σ.pass →
    ReachedBy σ i.body

/-- The specializations that a body calls. -/
def CalledBy (b : Body) (s : SpecId) : Prop :=
  ∃ e r c, (b.dispatchAt e).find? r c = some (.specialization s)

end Inference

namespace World

variable (W : World)

/-- How much a state has found, counted in members of types. -/
def weight (σ : State) : Nat :=
  σ.specs.size + ∑ s ∈ Finset.range σ.specs.size, (σ.types.members (σ.returnType ⟨s⟩)).length +
    ∑ c ∈ Finset.range W.classes, ∑ n ∈ W.names, (σ.types.members (σ.ivarType ⟨c⟩ n)).length

/-- A state grows within a pass. As long as it counts as unchanged, only bodies and stages change;
a state that counts as changed is heavier. -/
structure Widens (σ σ' : State) : Prop extends State.Grows σ σ' where
  pass : σ'.pass = σ.pass
  changed : σ.changed = true → σ'.changed = true
  same : σ'.changed = false → σ'.hierarchy = σ.hierarchy ∧
    ∀ s, (σ'.specs.get? s).map (fun i => (i.key, i.returnType)) =
      (σ.specs.get? s).map fun i => (i.key, i.returnType)
  weight_le : W.weight σ ≤ W.weight σ'
  weight_lt : σ'.changed = true → σ.changed = true ∨ W.weight σ < W.weight σ'

/-- What inference may do to a state. Evaluations that are under way stay under way, and what has
been evaluated in this pass is left alone. -/
structure Extends (σ σ' : State) : Prop extends W.Widens σ σ' where
  stage : ∀ s i j, σ.specs.get? s = some i → σ'.specs.get? s = some j → j.stage = i.stage
  done : ∀ s i, σ.specs.get? s = some i → i.stage = .idle → i.donePass = some σ.pass →
    σ'.specs.get? s = some i
  fresh : ∀ s j, σ.specs.get? s = none → σ'.specs.get? s = some j → j.stage = .idle

/-- A key of a specialization: the method takes so many arguments, and the types are types of
values. -/
structure KeyOk (t : TypeTable) (key : SpecKey) : Prop where
  method : ∃ m, W.ctx.methods.get? key.method = some m ∧
    m.definition.acceptsArity key.args.length = true
  receiver : ∀ a ∈ key.receiver, (t.shape a).IsValue W.classes
  args : ∀ a ∈ key.args, (t.shape a).IsValue W.classes

/-- A row of a call `k` is for values, and has the callee that resolution picks. -/
structure RowOk (σ : State) (k : Name) (r : Option TypeId) (c : List TypeId) (callee : Callee) :
    Prop where
  leads : W.registry.Leads σ.types σ.specs k r c callee
  receiver : ∀ a ∈ r, (σ.types.shape a).IsValue W.classes
  args : ∀ a ∈ c, (σ.types.shape a).IsValue W.classes

/-- The rows of a body in which `self` has the type `self` are those of calls. A call without a
receiver goes to `self` in all of its rows or in none. -/
def RowsOk (σ : State) (self : Option TypeId) (b : Body) : Prop :=
  ∀ e r c callee, (b.dispatchAt e).find? r c = some callee → ∃ u k, W.callAt e = some u ∧
    u.called = some k ∧ W.RowOk σ k r c callee ∧
    ∀ site as, u = .send site k as → r = W.sendReceiver σ.types self k

/-- A specialization is settled in a state: its stored body is typed, and evaluating it once more
finds the same body, changes nothing, and gives nothing that the stored return type lacks. -/
structure Settled (τ : State) (i : Specialization) : Prop where
  checks : W.Checks τ i
  again : W.Recalls τ → ∃ a, Infer.evaluate W.ctx W.answer i.key τ = some (.ok (a, i.body), τ) ∧
    τ.types.Inside a i.returnType

/-- What holds of every state of inference. -/
structure Ok (σ : State) : Prop where
  types : σ.types.WF
  described : W.registry.Described σ.types
  tree : σ.hierarchy.tree = W.tree
  ivars : ∀ c n a, σ.hierarchy.ivarType c n = some a → σ.types.Values W.classes a
  keys : ∀ s i, σ.specs.get? s = some i → W.KeyOk σ.types i.key
  returns : ∀ s i, σ.specs.get? s = some i → σ.types.Values W.classes i.returnType
  recent : ∀ s i p, σ.specs.get? s = some i → i.donePass = some p → p ≤ σ.pass
  rows : ∀ s i, σ.specs.get? s = some i → W.RowsOk σ i.key.receiver i.body
  settled : ∀ s i, σ.specs.get? s = some i → i.stage = .idle → i.donePass = some σ.pass →
    σ.changed = false → ∀ τ, Later σ τ (fun _ => True) → W.Settled τ i

variable {W} {σ σ₁ σ' τ : State} {t u : TypeTable} {D : SpecId → Prop}

theorem sendReceiver_mono (H : t.WF) (hle : t ≤ u) {self : Option TypeId}
    (hs : ∀ a ∈ self, t.Has a) (k : Name) : W.sendReceiver u self k = W.sendReceiver t self k := by
  have hself : t.Has (self.getD .object) := by
    cases self with
    | none => exact H.has_object
    | some a => exact hs a rfl
  simp only [sendReceiver, Option.filter_some, Registry.goesToSelf_mono H hle hself]

theorem sendReceiver_isMember (H : t.WF) {self : Option TypeId}
    (hs : ∀ a ∈ self, (t.shape a).IsMember) {k : Name} :
    ∀ a ∈ W.sendReceiver t self k, (t.shape a).IsMember := by
  intro a ha
  cases (Option.filter_eq_some_iff.1 ha).1
  cases self with
  | none => rw [Option.getD_none, H.shape_object]; trivial
  | some b => exact hs b rfl

namespace RowOk

theorem mono {k : Name} {r : Option TypeId} {c : List TypeId} {callee : Callee}
    (h : W.RowOk σ k r c callee) (H : σ.types.WF) (hle : σ.types ≤ σ'.types)
    (hs : σ.specs.Keeps σ'.specs) : W.RowOk σ' k r c callee where
  leads := h.leads.mono H hle hs
  receiver a ha := Values.isValue_mono hle (h.receiver a ha)
  args a ha := Values.isValue_mono hle (h.args a ha)

end RowOk

namespace RowsOk

variable {self : Option TypeId} {b : Body}

theorem empty : W.RowsOk σ self {} := fun e r c callee hf => by
  simp [Body.dispatchAt, DispatchTable.find?_empty] at hf

theorem mono (h : W.RowsOk σ self b) (H : σ.types.WF) (hs : ∀ a ∈ self, σ.types.Has a)
    (hle : σ.types ≤ σ'.types) (hss : σ.specs.Keeps σ'.specs) : W.RowsOk σ' self b := by
  intro e r c callee hf
  obtain ⟨u, k, hu, hk, hrow, hsend⟩ := h e r c callee hf
  refine ⟨u, k, hu, hk, hrow.mono H hle hss, fun site as h' => ?_⟩
  rw [sendReceiver_mono H hle hs k]
  exact hsend site as h'

variable {e e' : ExprId} {u : Term} {k : Name} {r : Option TypeId} {c : List TypeId}
  {callee : Callee} {table : DispatchTable}

theorem leads (h : W.RowsOk σ self b) (hf : (b.dispatchAt e).find? r c = some callee)
    (hu : W.callAt e = some u) (hk : u.called = some k) :
    W.registry.Leads σ.types σ.specs k r c callee := by
  obtain ⟨u', k', hu', hk', hrow, -⟩ := h e r c callee hf
  cases hu.symm.trans hu'
  cases hk.symm.trans hk'
  exact hrow.leads

/-- Adding rows to the table of a call. -/
theorem addRows (h : W.RowsOk σ self b) (hu : W.callAt e = some u) (hk : u.called = some k)
    (ht : ∀ r c callee, table.find? r c = some callee → W.RowOk σ k r c callee ∧
      ∀ site as, u = .send site k as → r = W.sendReceiver σ.types self k) :
    W.RowsOk σ self (b.addRows e table) := fun e' r c callee hf => by
  rcases Body.find?_addRows hf with hold | ⟨rfl, hnew⟩
  · exact h e' r c callee hold
  · exact ⟨u, k, hu, hk, ht r c callee hnew⟩

/-- Rows are still there once others were added, as all rows for the same types lead to the same
callee. -/
theorem kept (h : W.RowsOk σ self b) (h' : W.RowsOk σ self (b.addRows e table)) (H : σ.types.WF)
    (hf : (b.dispatchAt e').find? r c = some callee) :
    ((b.addRows e table).dispatchAt e').find? r c = some callee := by
  obtain ⟨callee', hf'⟩ := Body.exists_find?_addRows (.inl hf)
  obtain ⟨u, k, hu, hk, hrow, -⟩ := h e' r c callee hf
  rw [hf', (h'.leads hf' hu hk).unique H hrow.leads]

/-- So are the rows that were added. -/
theorem added (h' : W.RowsOk σ self (b.addRows e table)) (H : σ.types.WF)
    (hu : W.callAt e = some u) (hk : u.called = some k) (hrow : W.RowOk σ k r c callee)
    (hf : table.find? r c = some callee) :
    ((b.addRows e table).dispatchAt e).find? r c = some callee := by
  obtain ⟨callee', hf'⟩ := Body.exists_find?_addRows (.inr ⟨rfl, hf⟩)
  rw [hf', (h'.leads hf' hu hk).unique H hrow.leads]

end RowsOk

namespace KeyOk

theorem receiver_has {key : SpecKey} (h : W.KeyOk t key) : ∀ a ∈ key.receiver, t.Has a :=
  fun a ha => (Values.of_shape (h.receiver a ha)).1

theorem mono {key : SpecKey} (h : W.KeyOk t key) (hle : t ≤ u) : W.KeyOk u key where
  method := h.method
  receiver a ha := Values.isValue_mono hle (h.receiver a ha)
  args a ha := Values.isValue_mono hle (h.args a ha)

end KeyOk

namespace Ok

theorem size_eq (h : W.Ok σ) : σ.hierarchy.size = W.classes := by
  rw [World.classes, ← h.tree, Hierarchy.size_tree]

theorem returnType_values (h : W.Ok σ) (s : SpecId) :
    σ.types.Values W.classes (σ.returnType s) := by
  unfold State.returnType
  cases hs : σ.specs.get? s with
  | none => exact Values.never h.types
  | some i => exact h.returns s i hs

theorem ivarType_values (h : W.Ok σ) (c : ClassId) (n : Name) :
    σ.types.Values W.classes (σ.ivarType c n) := by
  unfold State.ivarType
  cases hs : σ.hierarchy.ivarType c n with
  | none => exact Values.never h.types
  | some a => exact h.ivars c n a hs

theorem grows_refl (h : W.Ok σ) : σ.Grows σ where
  types := le_refl _
  ivars _ _ a ha := ⟨a, ha, .refl (h.ivars _ _ _ ha).1⟩
  specs _ i hi := ⟨i, hi, rfl, .refl (h.returns _ _ hi).1⟩

section
variable (h : W.Ok σ) (hg : σ.Grows σ')
include h hg

/-- Members of return types are kept. -/
theorem returnType_subset (s : SpecId) :
    σ.types.members (σ.returnType s) ⊆ σ'.types.members (σ'.returnType s) := by
  unfold State.returnType
  cases hs : σ.specs.get? s with
  | none => simp [h.types.members_never]
  | some i =>
    obtain ⟨j, hj, -, hij⟩ := hg.specs s i hs
    rw [hj, Option.map_some, Option.map_some, Option.getD_some, Option.getD_some,
      ← (h.returns s i hs).1.members_eq hg.types]
    exact hij.2.2

/-- Members of the types of instance variables are kept. -/
theorem ivarType_subset (c : ClassId) (n : Name) :
    σ.types.members (σ.ivarType c n) ⊆ σ'.types.members (σ'.ivarType c n) := by
  unfold State.ivarType
  cases hs : σ.hierarchy.ivarType c n with
  | none => simp [h.types.members_never]
  | some a =>
    obtain ⟨b, hb, hab⟩ := hg.ivars c n a hs
    rw [hb, Option.getD_some, Option.getD_some, ← (h.ivars c n a hs).1.members_eq hg.types]
    exact hab.2.2

theorem length_returnType_le (s : SpecId) :
    (σ.types.members (σ.returnType s)).length ≤ (σ'.types.members (σ'.returnType s)).length :=
  (h.types.nodup_members.subperm (h.returnType_subset hg s)).length_le

theorem length_ivarType_le (c : ClassId) (n : Name) :
    (σ.types.members (σ.ivarType c n)).length ≤ (σ'.types.members (σ'.ivarType c n)).length :=
  (h.types.nodup_members.subperm (h.ivarType_subset hg c n)).length_le

theorem sum_returnType_le :
    ∑ s ∈ Finset.range σ.specs.size, (σ.types.members (σ.returnType ⟨s⟩)).length ≤
      ∑ s ∈ Finset.range σ'.specs.size, (σ'.types.members (σ'.returnType ⟨s⟩)).length :=
  (Finset.sum_le_sum fun s _ => h.length_returnType_le hg ⟨s⟩).trans
    (Finset.sum_le_sum_of_subset (Finset.range_mono hg.size_le))

theorem sum_ivarType_le :
    ∑ c ∈ Finset.range W.classes, ∑ n ∈ W.names, (σ.types.members (σ.ivarType ⟨c⟩ n)).length ≤
      ∑ c ∈ Finset.range W.classes, ∑ n ∈ W.names,
        (σ'.types.members (σ'.ivarType ⟨c⟩ n)).length :=
  Finset.sum_le_sum fun c _ => Finset.sum_le_sum fun n _ => h.length_ivarType_le hg ⟨c⟩ n

theorem weight_le : W.weight σ ≤ W.weight σ' := by
  have h₁ := hg.size_le
  have h₂ := h.sum_returnType_le hg
  have h₃ := h.sum_ivarType_le hg
  simp only [weight]
  omega

theorem weight_lt_of_size (hlt : σ.specs.size < σ'.specs.size) : W.weight σ < W.weight σ' := by
  have h₂ := h.sum_returnType_le hg
  have h₃ := h.sum_ivarType_le hg
  simp only [weight]
  omega

theorem weight_lt_of_returnType {s : SpecId} (hs : s.index < σ.specs.size)
    (hlt : (σ.types.members (σ.returnType s)).length <
      (σ'.types.members (σ'.returnType s)).length) : W.weight σ < W.weight σ' := by
  have h₁ := hg.size_le
  have h₂ : ∑ s ∈ Finset.range σ.specs.size, (σ.types.members (σ.returnType ⟨s⟩)).length <
      ∑ s ∈ Finset.range σ'.specs.size, (σ'.types.members (σ'.returnType ⟨s⟩)).length :=
    (Finset.sum_lt_sum (fun s _ => h.length_returnType_le hg ⟨s⟩)
      ⟨s.index, Finset.mem_range.2 hs, hlt⟩).trans_le
      (Finset.sum_le_sum_of_subset (Finset.range_mono h₁))
  have h₃ := h.sum_ivarType_le hg
  simp only [weight]
  omega

theorem weight_lt_of_ivarType {c : ClassId} {n : Name} (hc : c.index < W.classes)
    (hn : n ∈ W.names) (hlt : (σ.types.members (σ.ivarType c n)).length <
      (σ'.types.members (σ'.ivarType c n)).length) : W.weight σ < W.weight σ' := by
  have h₁ := hg.size_le
  have h₂ := h.sum_returnType_le hg
  have h₃ : ∑ c ∈ Finset.range W.classes, ∑ n ∈ W.names,
        (σ.types.members (σ.ivarType ⟨c⟩ n)).length <
      ∑ c ∈ Finset.range W.classes, ∑ n ∈ W.names,
        (σ'.types.members (σ'.ivarType ⟨c⟩ n)).length :=
    Finset.sum_lt_sum
      (fun c _ => Finset.sum_le_sum fun n _ => h.length_ivarType_le hg ⟨c⟩ n)
      ⟨c.index, Finset.mem_range.2 hc,
        Finset.sum_lt_sum (fun n _ => h.length_ivarType_le hg c n) ⟨n, hn, hlt⟩⟩
  simp only [weight]
  omega

end

theorem later_refl (h : W.Ok σ) (D : SpecId → Prop) : Later σ σ D :=
  ⟨h.types, le_refl _, rfl, fun _ => rfl, fun _ _ => rfl⟩

end Ok

namespace Widens

theorem refl (h : W.Ok σ) : W.Widens σ σ where
  toGrows := h.grows_refl
  pass := rfl
  changed := id
  same _ := ⟨rfl, fun _ => rfl⟩
  weight_le := Nat.le_refl _
  weight_lt := .inl

theorem trans (h : W.Widens σ σ₁) (h' : W.Widens σ₁ σ') : W.Widens σ σ' where
  toGrows := h.toGrows.trans h'.toGrows
  pass := h'.pass.trans h.pass
  changed hc := h'.changed (h.changed hc)
  same hc := by
    have h₁ : σ₁.changed = false := by
      cases hc₁ : σ₁.changed with
      | false => rfl
      | true => rw [h'.changed hc₁] at hc; cases hc
    obtain ⟨hh, hs⟩ := h.same h₁
    obtain ⟨hh', hs'⟩ := h'.same hc
    exact ⟨hh'.trans hh, fun s => (hs' s).trans (hs s)⟩
  weight_le := h.weight_le.trans h'.weight_le
  weight_lt hc := by
    rcases h'.weight_lt hc with hc | hlt
    · exact (h.weight_lt hc).imp_right fun hlt => hlt.trans_le h'.weight_le
    · exact .inr (h.weight_le.trans_lt hlt)

/-- A state that has not changed had not changed before. -/
theorem unchanged (h : W.Widens σ σ') (hc : σ'.changed = false) : σ.changed = false := by
  cases hc' : σ.changed with
  | false => rfl
  | true => rw [h.changed hc'] at hc; cases hc

theorem later (h : W.Widens σ σ') (hc : σ'.changed = false) (D : SpecId → Prop)
    (hl : Later σ' τ D) : Later σ τ D := by
  obtain ⟨hh, hs⟩ := h.same hc
  refine ⟨hl.wf, le_trans h.types hl.types, hl.hierarchy.trans hh, fun s => ?_, fun s hD => ?_⟩
  · have := congrArg (Option.map Prod.fst) (hs s)
    simp only [Option.map_map, Function.comp_def] at this
    rw [hl.keys, this]
  · have := congrArg (Option.map Prod.snd) (hs s)
    simp only [Option.map_map, Function.comp_def] at this
    rw [hl.returns s hD, this]

theorem rowsOk (h : W.Widens σ σ') (hσ : σ.types.WF) {self : Option TypeId} {b : Body}
    (hs : ∀ a ∈ self, σ.types.Has a) (hr : W.RowsOk σ self b) : W.RowsOk σ' self b :=
  hr.mono hσ hs h.types h.keeps

end Widens

namespace Extends

theorem refl (h : W.Ok σ) : W.Extends σ σ where
  toWidens := .refl h
  stage _ i j hi hj := by cases hi.symm.trans hj; rfl
  done _ _ hi _ _ := hi
  fresh _ _ hs hj := by simp [hs] at hj

theorem trans (h : W.Extends σ σ₁) (h' : W.Extends σ₁ σ') : W.Extends σ σ' where
  toWidens := h.toWidens.trans h'.toWidens
  stage s i l hi hl := by
    obtain ⟨j, hj, -⟩ := h.specs s i hi
    exact (h'.stage s j l hj hl).trans (h.stage s i j hi hj)
  done s i hi hs hd := h'.done s i (h.done s i hi hs hd) hs (by rw [hd, h.pass])
  fresh s l hs hl := by
    cases hj : σ₁.specs.get? s with
    | none => exact h'.fresh s l hj hl
    | some j => exact (h'.stage s j l hj hl).trans (h.fresh s j hs hj)

theorem reached (h : W.Extends σ σ') {callee : Callee} (hr : Reached σ callee) :
    Reached σ' callee := by
  have spec {s : SpecId} : (∃ i, σ.specs.get? s = some i ∧
      (i.stage ≠ .idle ∨ i.donePass = some σ.pass)) → ∃ i, σ'.specs.get? s = some i ∧
      (i.stage ≠ .idle ∨ i.donePass = some σ'.pass) := by
    rintro ⟨i, hi, hr⟩
    by_cases hs : i.stage = .idle
    · rcases hr with hr | hr
      · exact absurd hs hr
      · exact ⟨i, h.done s i hi hs hr, .inr (by rw [h.pass, hr])⟩
    · obtain ⟨j, hj, -⟩ := h.specs s i hi
      exact ⟨j, hj, .inl (by rwa [h.stage s i j hi hj])⟩
  cases callee with
  | specialization s => exact spec hr
  | allocate c => trivial
  | new c i =>
    cases i with
    | none => trivial
    | some s => exact spec hr

theorem reachedBy (h : W.Extends σ σ') {b : Body} (hr : ReachedBy σ b) : ReachedBy σ' b :=
  fun e r c callee hf => h.reached (hr e r c callee hf)

end Extends

/-- The next state is fine again if what is newly stored is. -/
theorem Ok.next (h : W.Ok σ) (he : W.Extends σ σ') (wf : σ'.types.WF)
    (tree : σ'.hierarchy.tree = W.tree)
    (ivars : ∀ c n a, σ'.hierarchy.ivarType c n = some a → σ'.types.Values W.classes a)
    (keys : ∀ s i, σ'.specs.get? s = some i → W.KeyOk σ'.types i.key)
    (returns : ∀ s i, σ'.specs.get? s = some i → σ'.types.Values W.classes i.returnType)
    (recent : ∀ s i p, σ'.specs.get? s = some i → i.donePass = some p → p ≤ σ'.pass)
    (bodies : ∀ s i, σ'.specs.get? s = some i → i.body = {} ∨
      ∃ j, σ.specs.get? s = some j ∧ i.key = j.key ∧ i.body = j.body)
    (done : ∀ s i, σ'.specs.get? s = some i → i.stage = .idle → i.donePass = some σ'.pass →
      σ.specs.get? s = some i) : W.Ok σ' where
  types := wf
  described := h.described.mono he.types
  tree := tree
  ivars := ivars
  keys := keys
  returns := returns
  recent := recent
  rows s i hi := by
    rcases bodies s i hi with hb | ⟨j, hj, hk, hb⟩
    · rw [hb]
      exact .empty
    · rw [hk, hb]
      exact he.rowsOk h.types (h.keys s j hj).receiver_has (h.rows s j hj)
  settled s i hi hs hd hc τ hl :=
    h.settled s i (done s i hi hs hd) hs (by rw [hd, he.pass]) (he.unchanged hc) τ
      (he.later hc _ hl)

end World

end Multimethod
