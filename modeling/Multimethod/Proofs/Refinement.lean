import Multimethod.Proofs.WellFormed

/-!
# Dispatch rows refine resolution

A row of a dispatch table was found while unions of receivers and arguments were taken apart, and
joined to rows of other rounds and passes. Still it has the target that resolving its call for
just its own types selects in the final program (`check_refines`).
-/

namespace Multimethod

open Inference TypeTable

namespace Program

variable (p : Program)

/-- Resolving a call to `k` for these types succeeds, with `target` as the only one. -/
def Resolves (k : Name) (receiver : Option TypeId) (args : List TypeId) (target : Target) : Prop :=
  ∀ span, ((p.registry.resolve k receiver args span).run p.types).1 =
    .ok [⟨receiver, args, target⟩]

/-- A row of a call to `k` goes where resolution for its types goes. Where a new object is made, the
initializer is missing just if none is defined, and else is the one that resolution selects. -/
structure Refines (k : Name) (row : Row) (target : Target) : Prop where
  resolves : p.Resolves k row.receiver row.args target
  method : ∀ m, target = .method m ↔ ∃ s i, row.target = .specialization s ∧
    p.specs.get? s = some i ∧ i.key.method = m
  allocate : ∀ c, target = .allocate c ↔ row.target = .allocate c
  new : ∀ c, target = .new c ↔ ∃ initializer, row.target = .new c initializer
  initializer : ∀ c initializer, row.target = .new c initializer →
    ∃ o, p.types.findExact c = some o ∧
      (initializer = none ↔
        p.methods.candidates p.hierarchy p.types p.core.initializer (some o) = []) ∧
      (initializer = none → row.args = []) ∧
      ∀ s ∈ initializer, ∃ m i, p.Resolves p.core.initializer (some o) row.args (.method m) ∧
        p.specs.get? s = some i ∧ i.key = ⟨m, some o, row.args⟩

end Program

namespace World

variable {W : World} {σ : State} {k : Name} {receiver : Option TypeId} {args : List TypeId}
  {target : Target}

/-- What a combination of values picks is what it is resolved to. -/
theorem resolve_tables_of_picks (h : W.Ok σ)
    (hr : ∀ a ∈ receiver, (σ.types.shape a).IsValue W.classes)
    (ha : ∀ a ∈ args, (σ.types.shape a).IsValue W.classes)
    (hp : W.registry.Picks σ.types k receiver args target) (span : Span) :
    (((W.tables σ).resolve k receiver args span).run σ.types).1 =
      .ok [⟨receiver, args, target⟩] := by
  rw [resolve_tables h.tree]
  exact Registry.resolve_of_picks h.types h.described
    (fun a ha => ⟨splits_of_shape (hr a ha), (hr a ha).isMember⟩)
    (fun a h => ⟨splits_of_shape (ha a h), (ha a h).isMember⟩) hp span

/-- An object understands `k` if there is a candidate for it. -/
theorem understands_of_isMember (h : W.Ok σ) {o : TypeId} (ho : (σ.types.shape o).IsMember) :
    W.ctx.methods.understands W.tree σ.types k o = false ↔
      W.ctx.methods.candidates σ.hierarchy σ.types k (some o) = [] := by
  simp only [MethodTable.understands, members_of_isMember ho, List.any_cons, List.any_nil,
    Bool.or_false, Bool.not_eq_false', List.isEmpty_iff, ← h.tree, MethodTable.candidates_tree]

end World

section
variable {names : NameTable} {source : Source} {limits : Limits} {es : List TypeError}
  {ctx : Context} {σ : State} {hk : Prepared names source limits es ctx σ}
  {answer : SpecId → Infer TypeId} {passes : Passes} {top : TopResult} {σ₁ σ₂ : State} {U : Scope}
  (hi : (hk.world answer).Inferred σ passes top σ₁ σ₂ U)
include hi

/-- The initializer of a row that makes a new object. -/
theorem initializer_refines {c : ClassId} {o : TypeId} {args : List TypeId}
    {initializer : Option SpecId} (ho : (World.frozen σ₂).types.shape o = .exact c)
    (hargs : ∀ a ∈ args, ((World.frozen σ₂).types.shape a).IsValue (hk.world answer).classes)
    (hc : c.index < (hk.world answer).classes)
    (h : match initializer with
      | none => args = [] ∧ ctx.methods.understands (hk.world answer).tree
          (World.frozen σ₂).types ctx.core.initializer o = false
      | some s => (args ≠ [] ∨ ctx.methods.understands (hk.world answer).tree
            (World.frozen σ₂).types ctx.core.initializer o = true) ∧
          ∃ m, (hk.world answer).registry.Picks (World.frozen σ₂).types ctx.core.initializer
            (some o) args (.method m) ∧
            (World.frozen σ₂).specs.find? ⟨m, some o, args⟩ = some s) :
    let p := (CheckResult.of es ctx passes top (World.frozen σ₂)).program
    (initializer = none ↔
        p.methods.candidates p.hierarchy p.types p.core.initializer (some o) = []) ∧
      (initializer = none → args = []) ∧
      ∀ s ∈ initializer, ∃ m i, p.Resolves p.core.initializer (some o) args (.method m) ∧
        p.specs.get? s = some i ∧ i.key = ⟨m, some o, args⟩ := by
  have hobj : ((World.frozen σ₂).types.shape o).IsValue (hk.world answer).classes := by
    rw [ho]
    exact hc
  have hhas : ∀ a ∈ some o, (World.frozen σ₂).types.Has a := fun a ha => by
    cases ha
    exact (Values.of_shape hobj).1
  have hcand := World.understands_of_isMember hi.ok hobj.isMember (k := ctx.core.initializer)
  cases initializer with
  | none => exact ⟨⟨fun _ => hcand.1 h.2, fun _ => rfl⟩, fun _ => h.1, nofun⟩
  | some s =>
    obtain ⟨-, m, hp, hf⟩ := h
    obtain ⟨i, hs, hkey⟩ := Specializations.find?_eq_some.1 hf
    refine ⟨⟨nofun, fun hnone => ?_⟩, nofun, ?_⟩
    · -- What resolution picks is a candidate.
      have hsuits := hp.suits hi.ok.types hi.ok.described hhas
        fun a ha => (Values.of_shape (hargs a ha)).1
      have hmem : m ∈ ctx.methods.candidates σ₂.hierarchy (World.frozen σ₂).types
          ctx.core.initializer (some o) := by
        have htree : σ₂.hierarchy.tree = (hk.world answer).tree := hi.found.ok.tree
        rw [← MethodTable.candidates_tree, htree]
        exact hsuits.1
      rw [show ctx.methods.candidates σ₂.hierarchy (World.frozen σ₂).types
        ctx.core.initializer (some o) = [] from hnone] at hmem
      cases hmem
    · rintro s ⟨⟩
      exact ⟨m, i, fun span => World.resolve_tables_of_picks hi.ok
        (fun a ha => by cases ha; exact hobj) hargs hp span, hs, hkey⟩

theorem refines_of_rowOk {k : Name} {row : Row} (h : (hk.world answer).RowOk (World.frozen σ₂) k
    row.receiver row.args row.target) :
    ∃ target, (CheckResult.of es ctx passes top (World.frozen σ₂)).program.Refines k row target := by
  obtain ⟨hl, hr, ha⟩ := h
  have resolves {target : Target} (hp : (hk.world answer).registry.Picks (World.frozen σ₂).types k
      row.receiver row.args target) :
      (CheckResult.of es ctx passes top (World.frozen σ₂)).program.Resolves k row.receiver row.args
        target := fun span => World.resolve_tables_of_picks hi.ok hr ha hp span
  cases htarget : row.target with
  | specialization s =>
    rw [htarget] at hl
    obtain ⟨m, hp, hf⟩ := hl
    obtain ⟨i, hs, hkey⟩ := Specializations.find?_eq_some.1 hf
    refine ⟨.method m, resolves hp, fun m' => ⟨?_, ?_⟩, by simp [htarget], by simp [htarget],
      by simp [htarget]⟩
    · rintro ⟨⟩
      exact ⟨s, i, htarget, hs, by rw [hkey]⟩
    · rintro ⟨s', i', hs', hi', rfl⟩
      cases htarget.symm.trans hs'
      cases hs.symm.trans hi'
      rw [hkey]
  | allocate c =>
    rw [htarget] at hl
    exact ⟨.allocate c, resolves hl, by simp [htarget], by simp [htarget], by simp [htarget],
      by simp [htarget]⟩
  | new c initializer =>
    rw [htarget] at hl
    obtain ⟨hp, o, ho, hinit⟩ := hl
    have hc : c.index < (hk.world answer).classes := by
      have hsuits := hp.suits hi.ok.types hi.ok.described
        (fun a h => (Values.of_shape (hr a h)).1) fun a h => (Values.of_shape (ha a h)).1
      obtain ⟨b, hb, hshape⟩ := hsuits
      have := hr b hb
      rw [hshape] at this
      exact this
    refine ⟨.new c, resolves hp, by simp [htarget], by simp [htarget],
      fun c' => ⟨?_, ?_⟩, ?_⟩
    · rintro ⟨⟩
      exact ⟨initializer, htarget⟩
    · rintro ⟨i, hi⟩
      cases htarget.symm.trans hi
      rfl
    · intro c' initializer' h'
      cases htarget.symm.trans h'
      have hhas : (World.frozen σ₂).types.Has o := has_of_shape (by rw [ho]; nofun)
      exact ⟨o, find?_eq_some.2 ⟨hhas, ho⟩,
        initializer_refines hi ho ha hc hinit⟩

end

/-- Every row of a checked program is one of a call, and has the target that resolving this call for
the types of the row selects. -/
theorem check_refines (names : NameTable) (source : Source) (limits : Limits) :
    ∃ r, check names source limits = some r ∧ ∀ unit e,
      ∀ row ∈ ((Machine.bodyOf r.program unit).dispatchAt e).toList, ∃ t k target,
        r.program.terms[e.index]? = some t ∧ t.called = some k ∧
        r.program.Refines k row target := by
  rcases hreg : register names source limits with ⟨es, ctx, σ⟩
  obtain ⟨hk, passes, top, σ₁, σ₂, -, -, hcheck, hinferred⟩ := check_eq hreg
  obtain ⟨U, hi⟩ := hinferred Infer.storedType
  refine ⟨_, hcheck, fun unit e row hrow => ?_⟩
  obtain ⟨self, hrows⟩ := rowsOk_bodyOf hi unit
  obtain ⟨t, k, ht, hk', h, -⟩ := hrows e _ _ _ (DispatchTable.mem_toList.1 hrow)
  obtain ⟨target, hrefines⟩ := refines_of_rowOk hi h
  exact ⟨t, k, target, ht, hk', hrefines⟩

end Multimethod
