import Multimethod.Machine.Call
import Multimethod.Proofs.Registration

/-!
# Checked programs are well formed

Whatever errors a source has and whatever the limits are, checking gives a program in which every
specialization is frozen and every row of a dispatch table leads to a callee that takes what the row
passes (`check_wellFormed`). So a run can rely on the tables without checking a call again.
-/

namespace Multimethod

open Inference TypeTable

namespace Program

variable (p : Program)

/-- A specialization for calls that pass just these types: its method takes so many arguments, and
all parameters beyond them have a default. -/
def Takes (s : SpecId) (receiver : Option TypeId) (args : List TypeId) : Prop :=
  ∃ i m, p.specs.get? s = some i ∧ i.key.receiver = receiver ∧ i.key.args = args ∧
    p.methods.get? i.key.method = some m ∧ m.definition.acceptsArity args.length = true ∧
    ∀ q ∈ m.definition.params.drop args.length, q.default ≠ none

/-- A row whose callee takes what the row passes. An initializer is called on the new object. -/
def RowWellFormed (row : Row) : Prop :=
  match row.target with
  | .specialization s => p.Takes s row.receiver row.args
  | .allocate _ => True
  | .new c initializer => ∀ s ∈ initializer, ∃ o, p.types.shape o = .exact c ∧
      p.Takes s (some o) row.args

/-- What a run relies on. -/
structure WellFormed : Prop where
  frozen : ∀ s i, p.specs.get? s = some i → i.stage = .frozen ∧ i.returnType ≠ .never
  keys : ∀ s s' i i', p.specs.get? s = some i → p.specs.get? s' = some i' → i.key = i'.key →
    s = s'
  members : ∀ s i, p.specs.get? s = some i → ∀ a ∈ i.key.receiver.toList ++ i.key.args,
    (p.types.shape a).IsValue p.hierarchy.size
  unique : ∀ unit e, ((Machine.bodyOf p unit).dispatchAt e).toList.Pairwise fun row row' =>
    (row.receiver, row.args) ≠ (row'.receiver, row'.args)
  rows : ∀ unit e, ∀ row ∈ ((Machine.bodyOf p unit).dispatchAt e).toList, p.RowWellFormed row

end Program

/-! ## The rows of a checked program -/

section
variable {names : NameTable} {source : Source} {limits : Limits} {es : List TypeError}
  {ctx : Context} {σ : State} {hk : Prepared names source limits es ctx σ}
  {answer : SpecId → Infer TypeId} {passes : Passes} {top : TopResult} {σ₁ σ₂ : State} {U : Scope}
  (hi : (hk.world answer).Inferred σ passes top σ₁ σ₂ U)
include hi

/-- The rows of all bodies lead where resolution leads. -/
theorem rowsOk_bodyOf (unit : Option SpecId) : ∃ self, (hk.world answer).RowsOk (World.frozen σ₂)
    self (Machine.bodyOf (CheckResult.of es ctx passes top (World.frozen σ₂)).program unit) := by
  cases unit with
  | none => exact ⟨none, hi.rows⟩
  | some s =>
    cases hs : (World.frozen σ₂).specs.get? s with
    | none =>
      refine ⟨none, ?_⟩
      simp only [Machine.bodyOf, CheckResult.of, hs]
      exact .empty
    | some i =>
      refine ⟨i.key.receiver, ?_⟩
      simp only [Machine.bodyOf, CheckResult.of, hs]
      exact hi.ok.rows s i hs

/-- A specialization that a row leads to takes what the row passes. -/
theorem takes_of_find? {m : MethodId} {receiver : Option TypeId} {args : List TypeId} {s : SpecId}
    (hf : (World.frozen σ₂).specs.find? ⟨m, receiver, args⟩ = some s) :
    (CheckResult.of es ctx passes top (World.frozen σ₂)).program.Takes s receiver args := by
  obtain ⟨i, hs, hkey⟩ := Specializations.find?_eq_some.1 hf
  obtain ⟨md, hmd, harity⟩ := (hi.ok.keys s i hs).method
  refine ⟨i, md, hs, by rw [hkey], by rw [hkey], hmd, by rw [hkey] at harity; exact harity, ?_⟩
  rw [hkey] at harity
  exact MethodTable.default_of_acceptsArity (hk.methods.placed _ md hmd) harity

theorem rowWellFormed_of_leads {k : Name} {row : Row} (h : (hk.world answer).registry.Leads
    (World.frozen σ₂).types (World.frozen σ₂).specs k row.receiver row.args row.target) :
    (CheckResult.of es ctx passes top (World.frozen σ₂)).program.RowWellFormed row := by
  unfold Program.RowWellFormed
  cases htarget : row.target with
  | specialization s =>
    rw [htarget] at h
    obtain ⟨m, -, hf⟩ := h
    exact takes_of_find? hi hf
  | allocate c => trivial
  | new c initializer =>
    rw [htarget] at h
    obtain ⟨-, o, ho, h⟩ := h
    rintro s ⟨⟩
    obtain ⟨-, m, -, hf⟩ := h
    exact ⟨o, ho, takes_of_find? hi hf⟩

end

/-- Checking ends for every source and all limits, with a program that is well formed. -/
theorem check_wellFormed (names : NameTable) (source : Source) (limits : Limits) :
    ∃ r, check names source limits = some r ∧ r.program.WellFormed := by
  rcases hreg : register names source limits with ⟨es, ctx, σ⟩
  obtain ⟨hk, passes, top, σ₁, σ₂, -, -, hcheck, hinferred⟩ := check_eq hreg
  obtain ⟨U, hi⟩ := hinferred Infer.storedType
  refine ⟨_, hcheck, ?_⟩
  have hok := hi.ok
  exact {
    frozen := fun s i hs => hi.returns hs
    keys := fun s s' i i' hs hs' hkey => Specializations.eq_of_key hs hs' hkey
    members := fun s i hs a ha => by
      have hsize : (CheckResult.of es ctx passes top (World.frozen σ₂)).program.hierarchy.size =
        (hk.world Infer.storedType).classes := hok.size_eq
      rw [hsize]
      rcases List.mem_append.1 ha with ha | ha
      · exact (hok.keys s i hs).receiver a (Option.mem_toList.1 ha)
      · exact (hok.keys s i hs).args a ha
    unique := fun unit e => (DispatchTable.pairwise_toList _).imp fun hne heq =>
      hne (Prod.mk.inj heq)
    rows := fun unit e row hrow => by
      obtain ⟨self, hrows⟩ := rowsOk_bodyOf hi unit
      obtain ⟨_, _, -, -, h, -⟩ := hrows e _ _ _ (DispatchTable.mem_toList.1 hrow)
      exact rowWellFormed_of_leads hi h.leads }

end Multimethod
